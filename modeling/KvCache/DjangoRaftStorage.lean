import KvCache.RaftStorage

/-!
# Raft persistence in database tables

`apps/cluster/raft_storage.py`: the same storage over two tables that several
nodes may share. A table is the dictionary of its rows by their unique column,
or columns. The members of a snapshot are kept as the dictionaries that
`json.loads` gives back for what `json.dumps` wrote.

`storages_interchangeable`: after any calls, whatever other nodes wrote in
between, a node reads back what the in-memory storage would have given it.
-/

namespace KvCache

/-! ## Members as JSON -/

namespace Member

def toDict (m : Member) : Dict String String :=
  Dict.ofList [("id", m.nodeId), ("raft", m.raftAddress), ("client", m.clientAddress)]

/-- none: a field is missing. -/
def fromDict (d : Dict String String) : Option Member :=
  match d.get? "id", d.get? "raft" with
  | some nodeId, some raftAddress => some ⟨nodeId, raftAddress, d.getD "client" ""⟩
  | _, _ => none

theorem fromDict_toDict (m : Member) : fromDict m.toDict = some m := by
  have hid : m.toDict.get? "id" = some m.nodeId := by simp [toDict, Dict.ofList]
  have hraft : m.toDict.get? "raft" = some m.raftAddress := by simp [toDict, Dict.ofList]
  have hclient : m.toDict.get? "client" = some m.clientAddress := by simp [toDict, Dict.ofList]
  simp [fromDict, hid, hraft, hclient, Dict.getD]

theorem mapM_fromDict (ms : List Member) : (ms.map toDict).mapM fromDict = some ms := by
  induction ms with
  | nil => rfl
  | cons m ms ih => simp [fromDict_toDict, ih]

end Member

/-! ## Tables -/

/-- A row of `raft_meta`, but for its node. -/
structure RaftMeta where
  currentTerm : Nat := 0
  votedFor : Option NodeId := none
  snapshotIndex : Nat := 0
  snapshotTerm : Nat := 0
  lastApplied : Nat := 0
  snapshotConfig : Option (List (Dict String String)) := none

/-- A row of `raft_log`, but for its node and index. -/
structure LogRow where
  term : Nat
  command : Command
  username : String
  requestId : String

def LogEntry.row (x : LogEntry) : LogRow := ⟨x.term, x.command, x.username, x.requestId⟩

def LogRow.entry (r : LogRow) (index : Nat) : LogEntry :=
  ⟨r.term, index, r.command, r.username, r.requestId⟩

structure RaftTables where
  rows : Dict NodeId RaftMeta := Dict.empty
  log : Dict (NodeId × Nat) LogRow := Dict.empty

/-- A row breaks a unique constraint. -/
inductive DbError where
  | integrity
deriving DecidableEq

namespace RaftTables

/-- The row of a node, or a new one. -/
def rowOf (t : RaftTables) (nodeId : NodeId) : RaftMeta := (t.rows.get? nodeId).getD {}

/-- `update_or_create` on `raft_meta`. -/
def updateOrCreate (t : RaftTables) (nodeId : NodeId) (defaults : RaftMeta → RaftMeta) :
    RaftTables :=
  { t with rows := t.rows.set nodeId (defaults (t.rowOf nodeId)) }

/-- Delete the entries of a node at the indexes that satisfy `p`. -/
def deleteEntries (t : RaftTables) (nodeId : NodeId) (p : Nat → Bool) : RaftTables :=
  { t with log := t.log.filter fun r => ¬ (r.1.1 = nodeId ∧ p r.1.2) }

/-- `bulk_create` on `raft_log`: all the rows or none. -/
def bulkCreate (nodeId : NodeId) (t : RaftTables) : List LogEntry → Except DbError RaftTables
  | [] => .ok t
  | x :: es =>
      if t.log.contains (nodeId, x.index) then .error .integrity
      else bulkCreate nodeId { t with log := t.log.set (nodeId, x.index) x.row } es

/-- The rows of one node beyond the boundary, in the order of their indexes. -/
def logRows (t : RaftTables) (nodeId : NodeId) (snap : Nat) : List ((NodeId × Nat) × LogRow) :=
  (t.log.items.filter fun r => r.1.1 = nodeId ∧ snap < r.1.2).insertionSort
    fun r r' => r.1.2 ≤ r'.1.2

end RaftTables

/-! ## The storage -/

namespace DjangoRaftStorage

open RaftTables

/-- none: the stored members are no members. -/
def load (nodeId : NodeId) (t : RaftTables) : Option PersistentState := do
  let saved := t.rowOf nodeId
  let rows := t.logRows nodeId saved.snapshotIndex
  let config ← match saved.snapshotConfig with
    | some ds => (ds.mapM Member.fromDict).map some
    | none => some none
  return {
    currentTerm := saved.currentTerm
    votedFor := saved.votedFor
    log := rows.map fun r => r.2.entry r.1.2
    snapshotIndex := saved.snapshotIndex
    snapshotTerm := saved.snapshotTerm
    lastApplied := saved.lastApplied
    snapshotConfig := config }

def saveTermAndVote (nodeId : NodeId) (term : Nat) (votedFor : Option NodeId) (t : RaftTables) :
    RaftTables :=
  t.updateOrCreate nodeId fun saved => { saved with currentTerm := term, votedFor := votedFor }

/-- One transaction: an error leaves the tables as they were. -/
def append (nodeId : NodeId) (entries : List LogEntry) (t : RaftTables) :
    Except DbError RaftTables :=
  match entries with
  | [] => .ok t
  | x :: _ => bulkCreate nodeId (t.deleteEntries nodeId fun i => x.index ≤ i) entries

def truncateFrom (nodeId : NodeId) (index : Nat) (t : RaftTables) : RaftTables :=
  t.deleteEntries nodeId fun i => index ≤ i

def saveSnapshot (nodeId : NodeId) (index term lastApplied : Nat) (config : Option (List Member))
    (t : RaftTables) : RaftTables :=
  let t := t.updateOrCreate nodeId fun saved =>
    { saved with
      snapshotIndex := index
      snapshotTerm := term
      lastApplied := lastApplied
      snapshotConfig := (config.map fun ms => ms.map Member.toDict).or saved.snapshotConfig }
  t.deleteEntries nodeId fun i => i ≤ index

end DjangoRaftStorage

/-! ## Calls -/

/-- A call that changes what is stored. -/
inductive StorageWrite where
  | saveTermAndVote (term : Nat) (votedFor : Option NodeId)
  | append (entries : List LogEntry)
  | truncateFrom (index : Nat)
  | saveSnapshot (index term lastApplied : Nat) (config : Option (List Member))

namespace StorageWrite

def inMemory (s : MemoryRaftStorage) : StorageWrite → MemoryRaftStorage
  | .saveTermAndVote term votedFor => s.saveTermAndVote term votedFor
  | .append entries => s.append entries
  | .truncateFrom index => s.truncateFrom index
  | .saveSnapshot index term lastApplied config => s.saveSnapshot index term lastApplied config

def inTables (nodeId : NodeId) (t : RaftTables) : StorageWrite → Except DbError RaftTables
  | .saveTermAndVote term votedFor => .ok (DjangoRaftStorage.saveTermAndVote nodeId term votedFor t)
  | .append entries => DjangoRaftStorage.append nodeId entries t
  | .truncateFrom index => .ok (DjangoRaftStorage.truncateFrom nodeId index t)
  | .saveSnapshot index term lastApplied config =>
      .ok (DjangoRaftStorage.saveSnapshot nodeId index term lastApplied config t)

/-- The entries of an append have consecutive indexes. -/
def Consecutive : StorageWrite → Prop
  | .append entries => ∀ j x y, entries[j]? = some x → entries[j + 1]? = some y →
      y.index = x.index + 1
  | _ => True

end StorageWrite

/-- One call of some node. What another node's call raises is that node's
affair; what a call of `nodeId` raises ends the run. -/
def stepTables (nodeId : NodeId) (t : RaftTables) (call : NodeId × StorageWrite) :
    Except DbError RaftTables :=
  match call.2.inTables call.1 t with
  | .ok t' => .ok t'
  | .error err => if call.1 = nodeId then .error err else .ok t

/-- The tables after the calls of all nodes. -/
def runTables (nodeId : NodeId) (t : RaftTables) (calls : List (NodeId × StorageWrite)) :
    Except DbError RaftTables :=
  calls.foldlM (stepTables nodeId) t

/-- The in-memory storage after the calls of one node. -/
def runMemory (nodeId : NodeId) (s : MemoryRaftStorage) (calls : List (NodeId × StorageWrite)) :
    MemoryRaftStorage :=
  (calls.filter fun call => call.1 = nodeId).foldl (fun s call => call.2.inMemory s) s

/-! ## What the tables hold -/

section Tables

variable {nodeId other : NodeId} {t t' : RaftTables} {entries : List LogEntry}

/-- What the tables say of one node is the same. -/
structure SameFor (nodeId : NodeId) (t t' : RaftTables) : Prop where
  row : t'.rowOf nodeId = t.rowOf nodeId
  log : ∀ i r, ((nodeId, i), r) ∈ t'.log.items ↔ ((nodeId, i), r) ∈ t.log.items

theorem SameFor.trans {t'' : RaftTables} (h : SameFor nodeId t t') (h' : SameFor nodeId t' t'') :
    SameFor nodeId t t'' where
  row := h'.row.trans h.row
  log i r := (h'.log i r).trans (h.log i r)

@[simp] theorem rowOf_updateOrCreate (defaults : RaftMeta → RaftMeta) :
    (t.updateOrCreate other defaults).rowOf nodeId
      = if nodeId = other then defaults (t.rowOf other) else t.rowOf nodeId := by
  unfold RaftTables.updateOrCreate RaftTables.rowOf
  rw [Dict.get?_set]
  split <;> rfl

theorem mem_deleteEntries {p : Nat → Bool} {i : Nat} {r : LogRow} :
    ((nodeId, i), r) ∈ (t.deleteEntries other p).log.items
      ↔ ((nodeId, i), r) ∈ t.log.items ∧ ¬ (nodeId = other ∧ p i = true) := by
  rw [RaftTables.deleteEntries, Dict.mem_filter, decide_eq_true_iff]

theorem sameFor_updateOrCreate (h : nodeId ≠ other) (defaults : RaftMeta → RaftMeta) :
    SameFor nodeId t (t.updateOrCreate other defaults) where
  row := by rw [rowOf_updateOrCreate, if_neg h]
  log _ _ := Iff.rfl

theorem sameFor_deleteEntries (h : nodeId ≠ other) (p : Nat → Bool) :
    SameFor nodeId t (t.deleteEntries other p) where
  row := rfl
  log i r := by
    rw [mem_deleteEntries]
    exact and_iff_left fun hc => h hc.1

theorem sameFor_bulkCreate (h : nodeId ≠ other) :
    ∀ {entries : List LogEntry} {t : RaftTables}, t.bulkCreate other entries = .ok t' →
      SameFor nodeId t t'
  | [], t, heq => by
      obtain rfl : t = t' := Except.ok.inj heq
      exact ⟨rfl, fun _ _ => Iff.rfl⟩
  | x :: es, t, heq => by
      rw [RaftTables.bulkCreate] at heq
      split at heq
      · cases heq
      · have hset : SameFor nodeId t { t with log := t.log.set (other, x.index) x.row } := by
          refine ⟨rfl, fun i r => ?_⟩
          rw [Dict.mem_set]
          simp [h]
        exact hset.trans (sameFor_bulkCreate h heq)

/-- The calls of another node change nothing for this one. -/
theorem sameFor_inTables (h : nodeId ≠ other) {write : StorageWrite}
    (heq : write.inTables other t = .ok t') : SameFor nodeId t t' := by
  cases write with
  | saveTermAndVote term votedFor =>
      obtain rfl := Except.ok.inj heq
      exact sameFor_updateOrCreate h _
  | append entries =>
      cases entries with
      | nil =>
          obtain rfl : t = t' := Except.ok.inj heq
          exact ⟨rfl, fun _ _ => Iff.rfl⟩
      | cons x es => exact (sameFor_deleteEntries h _).trans (sameFor_bulkCreate h heq)
  | truncateFrom index =>
      obtain rfl := Except.ok.inj heq
      exact sameFor_deleteEntries h _
  | saveSnapshot index term lastApplied config =>
      obtain rfl := Except.ok.inj heq
      unfold DjangoRaftStorage.saveSnapshot
      exact (sameFor_updateOrCreate h _).trans (sameFor_deleteEntries h _)

/-- Rows that are not there yet are all created. -/
theorem bulkCreate_ok (hnew : ∀ x ∈ entries, t.log.get? (nodeId, x.index) = none)
    (hdup : (entries.map LogEntry.index).Nodup) :
    ∃ t', t.bulkCreate nodeId entries = .ok t' ∧ t'.rows = t.rows ∧
      ∀ i r, ((nodeId, i), r) ∈ t'.log.items ↔
        (∃ x ∈ entries, x.index = i ∧ x.row = r) ∨ ((nodeId, i), r) ∈ t.log.items := by
  induction entries generalizing t with
  | nil => exact ⟨t, rfl, rfl, by simp⟩
  | cons x es ih =>
      have hx := hnew x List.mem_cons_self
      rw [List.map_cons, List.nodup_cons] at hdup
      obtain ⟨t', hok, hrows, hmem⟩ :=
        ih (t := { t with log := t.log.set (nodeId, x.index) x.row }) (fun y hy => by
          have hne : y.index ≠ x.index := fun heq => hdup.1 (heq ▸ List.mem_map_of_mem hy)
          rw [Dict.get?_set, if_neg (by simpa using hne)]
          exact hnew y (List.mem_cons_of_mem x hy)) hdup.2
      refine ⟨t', ?_, hrows, fun i r => ?_⟩
      · rw [RaftTables.bulkCreate, if_neg (by simp [Dict.contains, hx])]
        exact hok
      · rw [hmem, Dict.mem_set]
        have hold : ((nodeId, i), r) ∈ t.log.items → i ≠ x.index := by
          rintro hm rfl
          exact Dict.get?_eq_none.mp hx r hm
        constructor
        · rintro (⟨y, hy, rfl, rfl⟩ | ⟨heq, rfl⟩ | ⟨-, hm⟩)
          · exact Or.inl ⟨y, List.mem_cons_of_mem x hy, rfl, rfl⟩
          · obtain rfl : i = x.index := (Prod.mk.inj heq).2
            exact Or.inl ⟨x, List.mem_cons_self, rfl, rfl⟩
          · exact Or.inr hm
        · rintro (⟨y, hy, rfl, rfl⟩ | hm)
          · rcases List.mem_cons.mp hy with rfl | hy
            · exact Or.inr (Or.inl ⟨rfl, rfl⟩)
            · exact Or.inl ⟨y, hy, rfl, rfl⟩
          · exact Or.inr (Or.inr ⟨fun heq => hold hm (Prod.mk.inj heq).2, hm⟩)

end Tables

/-! ## The two storages side by side -/

/-- The tables hold for `nodeId` what the in-memory storage holds. -/
structure Mirrors (nodeId : NodeId) (s : MemoryRaftStorage) (t : RaftTables) : Prop where
  currentTerm : (t.rowOf nodeId).currentTerm = s.term
  votedFor : (t.rowOf nodeId).votedFor = s.votedFor
  snapshotIndex : (t.rowOf nodeId).snapshotIndex = s.snapshotIndex
  snapshotTerm : (t.rowOf nodeId).snapshotTerm = s.snapshotTerm
  lastApplied : (t.rowOf nodeId).lastApplied = s.lastApplied
  config : (t.rowOf nodeId).snapshotConfig = s.config.map fun ms => ms.map Member.toDict
  keyed : ∀ i x, (i, x) ∈ s.entries.items → x.index = i
  log : ∀ i r, ((nodeId, i), r) ∈ t.log.items ↔ (i, r.entry i) ∈ s.entries.items

section Mirror

variable {nodeId : NodeId} {s : MemoryRaftStorage} {t t' : RaftTables}

theorem Mirrors.empty : Mirrors nodeId {} {} where
  currentTerm := rfl
  votedFor := rfl
  snapshotIndex := rfl
  snapshotTerm := rfl
  lastApplied := rfl
  config := rfl
  keyed _ _ hm := nomatch hm
  log _ _ := by simp

theorem Mirrors.of_sameFor (h : Mirrors nodeId s t) (hs : SameFor nodeId t t') :
    Mirrors nodeId s t' := by
  obtain ⟨hrow, hlog⟩ := hs
  exact
    { currentTerm := hrow ▸ h.currentTerm
      votedFor := hrow ▸ h.votedFor
      snapshotIndex := hrow ▸ h.snapshotIndex
      snapshotTerm := hrow ▸ h.snapshotTerm
      lastApplied := hrow ▸ h.lastApplied
      config := hrow ▸ h.config
      keyed := h.keyed
      log := fun i r => (hlog i r).trans (h.log i r) }

/-- Entries are deleted on both sides. -/
theorem Mirrors.delete (h : Mirrors nodeId s t) (p : Nat → Bool) :
    Mirrors nodeId { s with entries := s.entries.filter fun q => ¬ p q.1 }
      (t.deleteEntries nodeId p) :=
  { h with
    keyed := fun i x hm => h.keyed i x (Dict.mem_filter.mp hm).1
    log := fun i r => by
      rw [mem_deleteEntries, Dict.mem_filter, h.log]
      simp }

theorem Mirrors.saveTermAndVote (h : Mirrors nodeId s t) (term : Nat) (votedFor : Option NodeId) :
    Mirrors nodeId (s.saveTermAndVote term votedFor)
      (DjangoRaftStorage.saveTermAndVote nodeId term votedFor t) := by
  unfold DjangoRaftStorage.saveTermAndVote
  constructor
  case keyed => exact h.keyed
  case log => exact h.log
  all_goals rw [rowOf_updateOrCreate, if_pos rfl]
  case currentTerm => rfl
  case votedFor => rfl
  case snapshotIndex => exact h.snapshotIndex
  case snapshotTerm => exact h.snapshotTerm
  case lastApplied => exact h.lastApplied
  case config => exact h.config

theorem Mirrors.dropFrom (h : Mirrors nodeId s t) (index : Nat) :
    Mirrors nodeId (s.dropFrom index) (t.deleteEntries nodeId fun i => index ≤ i) := by
  have hdrop : s.entries.filter (fun q => q.1 < index)
      = s.entries.filter fun q => ¬ decide (index ≤ q.1) := by simp
  unfold MemoryRaftStorage.dropFrom
  rw [hdrop]
  exact h.delete fun i => index ≤ i

theorem Mirrors.saveSnapshot (h : Mirrors nodeId s t) (index term lastApplied : Nat)
    (config : Option (List Member)) :
    Mirrors nodeId (s.saveSnapshot index term lastApplied config)
      (DjangoRaftStorage.saveSnapshot nodeId index term lastApplied config t) := by
  have hmeta : Mirrors nodeId
      { s with
        snapshotIndex := index
        snapshotTerm := term
        lastApplied := lastApplied
        config := config.or s.config }
      (t.updateOrCreate nodeId fun saved =>
        { saved with
          snapshotIndex := index
          snapshotTerm := term
          lastApplied := lastApplied
          snapshotConfig :=
            (config.map fun ms => ms.map Member.toDict).or saved.snapshotConfig }) := by
    constructor
    case keyed => exact h.keyed
    case log => exact h.log
    all_goals rw [rowOf_updateOrCreate, if_pos rfl]
    case currentTerm => exact h.currentTerm
    case votedFor => exact h.votedFor
    case config =>
      rw [h.config]
      cases config <;> rfl
  have hdrop : s.entries.filter (fun q => index < q.1)
      = s.entries.filter fun q => ¬ decide (q.1 ≤ index) := by simp
  unfold MemoryRaftStorage.saveSnapshot
  rw [hdrop]
  exact hmeta.delete fun i => i ≤ index

/-! ## Appending -/

/-- The index of the `j`-th entry counts on from the first. -/
theorem index_of_consecutive {x : LogEntry} {es : List LogEntry}
    (h : (StorageWrite.append (x :: es)).Consecutive) :
    ∀ {j : Nat} {y : LogEntry}, (x :: es)[j]? = some y → y.index = x.index + j
  | 0, y, hy => by rw [← Option.some.inj hy, Nat.add_zero]
  | j + 1, y, hy => by
      have hlt : j < (x :: es).length := Nat.lt_of_succ_lt (List.getElem?_eq_some_iff.mp hy).1
      have hz : (x :: es)[j]? = some (x :: es)[j] := List.getElem?_eq_getElem hlt
      rw [h j _ y hz hy, index_of_consecutive h hz, Nat.add_assoc]

/-- What is in a dictionary after setting several keys, none twice. -/
theorem mem_setAll {es : List LogEntry} (hdup : (es.map LogEntry.index).Nodup) :
    ∀ {d : Dict Nat LogEntry} {i : Nat} {y : LogEntry},
      (i, y) ∈ (es.foldl (fun d x => d.set x.index x) d).items ↔
        (∃ x ∈ es, x.index = i ∧ x = y) ∨ (i ∉ es.map LogEntry.index ∧ (i, y) ∈ d.items) := by
  induction es with
  | nil => simp
  | cons x es ih =>
      intro d i y
      rw [List.map_cons, List.nodup_cons] at hdup
      rw [List.foldl_cons, ih hdup.2, Dict.mem_set]
      constructor
      · rintro (⟨z, hz, rfl, rfl⟩ | ⟨hi, ⟨rfl, rfl⟩ | ⟨hne, hm⟩⟩)
        · exact Or.inl ⟨z, List.mem_cons_of_mem x hz, rfl, rfl⟩
        · exact Or.inl ⟨y, List.mem_cons_self, rfl, rfl⟩
        · refine Or.inr ⟨?_, hm⟩
          rw [List.map_cons, List.mem_cons]
          exact not_or.mpr ⟨hne, hi⟩
      · rintro (⟨z, hz, rfl, rfl⟩ | ⟨hi, hm⟩)
        · rcases List.mem_cons.mp hz with rfl | hz
          · exact Or.inr ⟨hdup.1, Or.inl ⟨rfl, rfl⟩⟩
          · exact Or.inl ⟨z, hz, rfl, rfl⟩
        · rw [List.map_cons, List.mem_cons, not_or] at hi
          exact Or.inr ⟨hi.2, Or.inr ⟨hi.1, hm⟩⟩

/-- Consecutive entries are appended on both sides, and nothing is raised. -/
theorem Mirrors.append (h : Mirrors nodeId s t) {entries : List LogEntry}
    (hc : (StorageWrite.append entries).Consecutive) :
    ∃ t', DjangoRaftStorage.append nodeId entries t = .ok t' ∧
      Mirrors nodeId (s.append entries) t' := by
  cases entries with
  | nil => exact ⟨t, rfl, h⟩
  | cons x es =>
      have hindex : ∀ y ∈ x :: es, x.index ≤ y.index := fun y hy => by
        obtain ⟨j, hj⟩ := List.mem_iff_getElem?.mp hy
        rw [index_of_consecutive hc hj]
        exact Nat.le_add_right _ _
      have hdup : ((x :: es).map LogEntry.index).Nodup := by
        rw [List.nodup_iff_getElem?_ne_getElem?]
        intro i j hij hj
        rw [List.length_map] at hj
        have hi : i < (x :: es).length := hij.trans hj
        rw [List.getElem?_map, List.getElem?_map, List.getElem?_eq_getElem hi,
          List.getElem?_eq_getElem hj, Option.map_some, Option.map_some]
        intro heq
        have hi' := index_of_consecutive hc (List.getElem?_eq_getElem hi)
        have hj' := index_of_consecutive hc (List.getElem?_eq_getElem hj)
        have := Option.some.inj heq
        omega
      -- the deletion made room for all of them
      have hd := h.dropFrom x.index
      have hnew : ∀ y ∈ x :: es, (t.deleteEntries nodeId fun i => x.index ≤ i).log.get?
          (nodeId, y.index) = none := fun y hy => by
        refine Dict.get?_eq_none.mpr fun r hm => ?_
        rw [mem_deleteEntries] at hm
        exact hm.2 ⟨rfl, decide_eq_true (hindex y hy)⟩
      obtain ⟨t', hok, hrows, hmem⟩ := bulkCreate_ok hnew hdup
      have hrow : t'.rowOf nodeId = t.rowOf nodeId := by
        unfold RaftTables.rowOf
        rw [hrows]
        rfl
      refine ⟨t', hok, ?_⟩
      unfold MemoryRaftStorage.append
      constructor
      case keyed =>
        intro i y hm
        rcases (mem_setAll hdup).mp hm with ⟨z, -, rfl, rfl⟩ | ⟨-, hm⟩
        · rfl
        · exact hd.keyed i y hm
      case log =>
        intro i r
        rw [hmem, mem_setAll hdup, hd.log]
        refine or_congr ?_ ?_
        · constructor
          · rintro ⟨z, hz, rfl, rfl⟩
            exact ⟨z, hz, rfl, rfl⟩
          · rintro ⟨z, hz, rfl, heq⟩
            refine ⟨z, hz, rfl, ?_⟩
            rw [heq]
            rfl
        · refine (and_iff_right_of_imp fun hm hi => ?_).symm
          obtain ⟨z, hz, rfl⟩ := List.mem_map.mp hi
          have := (Dict.mem_filter.mp hm).2
          have := hindex z hz
          simp at *
          omega
      all_goals rw [hrow]
      case currentTerm => exact h.currentTerm
      case votedFor => exact h.votedFor
      case snapshotIndex => exact h.snapshotIndex
      case snapshotTerm => exact h.snapshotTerm
      case lastApplied => exact h.lastApplied
      case config => exact h.config

/-! ## Loading -/

theorem mem_logRows {snap : Nat} {r : (NodeId × Nat) × LogRow} :
    r ∈ t.logRows nodeId snap ↔ r ∈ t.log.items ∧ r.1.1 = nodeId ∧ snap < r.1.2 := by
  rw [RaftTables.logRows, List.mem_insertionSort, List.mem_filter, decide_eq_true_iff]

theorem logRows_sorted (nodeId : NodeId) (snap : Nat) (t : RaftTables) :
    (t.logRows nodeId snap).Pairwise fun r r' => r.1.2 < r'.1.2 := by
  have : IsTrans ((NodeId × Nat) × LogRow) fun r r' => r.1.2 ≤ r'.1.2 := ⟨fun _ _ _ => Nat.le_trans⟩
  have : Std.Total (α := (NodeId × Nat) × LogRow) fun r r' => r.1.2 ≤ r'.1.2 :=
    ⟨fun r r' => Nat.le_total r.1.2 r'.1.2⟩
  have hle : (t.logRows nodeId snap).Pairwise fun r r' => r.1.2 ≤ r'.1.2 :=
    List.pairwise_insertionSort _ _
  have hne : (t.logRows nodeId snap).Pairwise fun r r' => r.1 ≠ r'.1 := by
    have hkeys := ((List.perm_insertionSort (fun r r' : (NodeId × Nat) × LogRow =>
      r.1.2 ≤ r'.1.2) (t.log.items.filter fun r => r.1.1 = nodeId ∧ snap < r.1.2)).map
        Prod.fst).nodup_iff.mpr (t.log.nodup.sublist (List.filter_sublist.map _))
    exact List.pairwise_map.mp hkeys
  refine (hle.and hne).imp_of_mem fun {r r'} hr hr' h => Nat.lt_of_le_of_ne h.1 fun heq => h.2 ?_
  exact Prod.ext ((mem_logRows.mp hr).2.1.trans (mem_logRows.mp hr').2.1.symm) heq

/-- The rows read back are the entries of the in-memory storage. -/
theorem Mirrors.log_eq (h : Mirrors nodeId s t) :
    (t.logRows nodeId s.snapshotIndex).map (fun r => r.2.entry r.1.2) = s.load.log := by
  have hs := (MemoryRaftStorage.sorted_items s.entries).filter fun p =>
    decide (s.snapshotIndex < p.1)
  have ht : ((t.logRows nodeId s.snapshotIndex).map fun r => (r.1.2, r.2.entry r.1.2)).Pairwise
      fun p q => p.1 < q.1 :=
    List.pairwise_map.mpr (logRows_sorted nodeId s.snapshotIndex t)
  have hperm := (List.perm_ext_iff_of_nodup (MemoryRaftStorage.nodup_of_sorted ht)
    (MemoryRaftStorage.nodup_of_sorted hs)).mpr fun p => by
      obtain ⟨i, x⟩ := p
      rw [List.mem_filter, List.mem_insertionSort, decide_eq_true_iff, List.mem_map]
      constructor
      · rintro ⟨⟨⟨j, k⟩, r⟩, hr, heq⟩
        obtain ⟨hm, rfl, hk⟩ := mem_logRows.mp hr
        obtain ⟨rfl, rfl⟩ := Prod.mk.inj heq
        exact ⟨(h.log k r).mp hm, hk⟩
      · rintro ⟨hm, hk⟩
        have hi : x.index = i := h.keyed i x hm
        subst hi
        exact ⟨((nodeId, x.index), x.row), mem_logRows.mpr ⟨(h.log _ _).mpr hm, rfl, hk⟩, rfl⟩
  have heq := hperm.eq_of_pairwise (fun a b _ _ h1 h2 => absurd h1 (Nat.lt_asymm h2)) ht hs
  have hvalues := congrArg (List.map Prod.snd) heq
  rw [List.map_map] at hvalues
  exact hvalues

theorem Mirrors.load (h : Mirrors nodeId s t) : DjangoRaftStorage.load nodeId t = some s.load := by
  have hrows := h.log_eq
  unfold DjangoRaftStorage.load
  simp only [hrows, h.currentTerm, h.votedFor, h.snapshotIndex, h.snapshotTerm, h.lastApplied,
    h.config]
  cases hconfig : s.config with
  | none => simp [MemoryRaftStorage.load, hconfig]
  | some ms =>
      simp only [Option.map_some, Member.mapM_fromDict]
      simp [MemoryRaftStorage.load, hconfig]

/-! ## Runs -/

/-- A call of the node itself is never refused. -/
theorem Mirrors.ownStep (h : Mirrors nodeId s t) {write : StorageWrite} (hc : write.Consecutive) :
    ∃ t', stepTables nodeId t (nodeId, write) = .ok t' ∧ Mirrors nodeId (write.inMemory s) t' := by
  have hstep : ∃ t', write.inTables nodeId t = .ok t' ∧ Mirrors nodeId (write.inMemory s) t' := by
    cases write with
    | saveTermAndVote term votedFor => exact ⟨_, rfl, h.saveTermAndVote term votedFor⟩
    | append entries => exact h.append hc
    | truncateFrom index => exact ⟨_, rfl, h.dropFrom index⟩
    | saveSnapshot index term lastApplied config =>
        exact ⟨_, rfl, h.saveSnapshot index term lastApplied config⟩
  obtain ⟨t', hok, h'⟩ := hstep
  refine ⟨t', ?_, h'⟩
  unfold stepTables
  rw [hok]

/-- A call of another node changes nothing, whether it is refused or not. -/
theorem Mirrors.otherStep (h : Mirrors nodeId s t) {other : NodeId} (hne : other ≠ nodeId)
    (write : StorageWrite) :
    ∃ t', stepTables nodeId t (other, write) = .ok t' ∧ Mirrors nodeId s t' := by
  unfold stepTables
  cases hok : write.inTables other t with
  | ok t' => exact ⟨t', rfl, h.of_sameFor (sameFor_inTables hne.symm hok)⟩
  | error err => exact ⟨t, if_neg hne, h⟩

/-- After any calls, with the calls of other nodes in between, both storages
of a node still agree, and none of its own calls was refused. -/
theorem Mirrors.run {calls : List (NodeId × StorageWrite)}
    (hc : ∀ call ∈ calls, call.1 = nodeId → call.2.Consecutive) (h : Mirrors nodeId s t) :
    ∃ t', runTables nodeId t calls = .ok t' ∧ Mirrors nodeId (runMemory nodeId s calls) t' := by
  induction calls generalizing s t with
  | nil => exact ⟨t, rfl, h⟩
  | cons call calls ih =>
      obtain ⟨other, write⟩ := call
      have hrest : ∀ call ∈ calls, call.1 = nodeId → call.2.Consecutive := fun call hm =>
        hc call (List.mem_cons_of_mem _ hm)
      unfold runTables runMemory
      rw [List.foldlM_cons]
      by_cases hown : other = nodeId
      · subst hown
        obtain ⟨t', hok, h'⟩ := h.ownStep (hc _ List.mem_cons_self rfl)
        rw [List.filter_cons_of_pos (by simp), List.foldl_cons, hok]
        exact ih hrest h'
      · obtain ⟨t', hok, h'⟩ := h.otherStep hown write
        rw [List.filter_cons_of_neg (by simpa using hown), hok]
        exact ih hrest h'

end Mirror

/-- The two storages are interchangeable: after any calls a node loads from
the shared tables what it would have loaded from memory. -/
theorem storages_interchangeable (nodeId : NodeId) (calls : List (NodeId × StorageWrite))
    (hc : ∀ call ∈ calls, call.1 = nodeId → call.2.Consecutive) :
    ∃ t, runTables nodeId {} calls = .ok t ∧
      DjangoRaftStorage.load nodeId t = some (runMemory nodeId {} calls).load := by
  obtain ⟨t, hok, h⟩ := Mirrors.empty.run hc
  exact ⟨t, hok, h.load⟩

/-- Two nodes write entries over one another's indexes. -/
def sharedCalls : List (NodeId × StorageWrite) :=
  [("n1", .append [{ term := 1, index := 1, command := .noop, username := "" },
      { term := 1, index := 2, command := .write "SET a 1", username := "bob" }]),
    ("n2", .append [{ term := 3, index := 2, command := .noop, username := "" }]),
    ("n1", .saveSnapshot 1 1 1 (some [⟨"n1", "a1", ""⟩])),
    ("n1", .append [{ term := 2, index := 2, command := .noop, username := "" }])]

theorem storages_interchangeable_shared :
    ∃ t, runTables "n1" {} sharedCalls = .ok t ∧
      DjangoRaftStorage.load "n1" t = some (runMemory "n1" {} sharedCalls).load :=
  storages_interchangeable "n1" sharedCalls (by
    intro call hm _
    simp only [sharedCalls, List.mem_cons, List.not_mem_nil, or_false] at hm
    rcases hm with rfl | rfl | rfl | rfl
    · rintro (_ | j) x y hx hy
      · obtain rfl := Option.some.inj hx
        obtain rfl := Option.some.inj hy
        rfl
      · simp at hy
    · intro j x y hx hy
      simp at hy
    · trivial
    · intro j x y hx hy
      simp at hy)

end KvCache

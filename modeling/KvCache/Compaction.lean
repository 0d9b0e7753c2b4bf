import KvCache.ClusterSafety
import KvCache.LogQueries
import KvCache.TwoRuns

/-!
# Compaction and AppendEntries

A node that folds a prefix of its log into the snapshot answers every
AppendEntries request as it would have answered it before, and is left in
the same state (`compaction_is_invisible`). Two runs of the handler are
followed side by side: one on an engine, one on the engine with its log
folded at `s` (`foldedAt`). Every helper of the handler keeps the two
related (`Folds`).
-/

namespace KvCache

open StateWp Engine

/-! ## An engine and its folded copy -/

/-- What the folded engine has of its own. -/
structure Own where
  snapshotTerm : Nat
  snapshotConfig : Option (List Member)
  storage : MemoryRaftStorage
  faults : StorageCall → List Bool
  configIndex : Nat

/-- The engine with the entries up to `s` in the snapshot. -/
def Engine.foldedAt (e : Engine) (s : Nat) (own : Own) : Engine :=
  { e with
    node :=
      { e.node with
        log := e.node.log.drop (s - e.node.snapshotIndex)
        snapshotIndex := s
        snapshotTerm := own.snapshotTerm
        snapshotConfig := own.snapshotConfig }
    storage := own.storage
    faults := own.faults
    configIndex := own.configIndex }

/-- The boundary `s` lies within the log and what has been committed, and
the snapshot says what the log says. -/
structure Fits (s : Nat) (own : Own) (e : Engine) : Prop where
  indexed : e.node.Indexed
  ge : e.node.snapshotIndex ≤ s
  le : s ≤ e.node.lastLogIndex
  committed : s ≤ e.node.commitIndex
  term : e.node.termAt s = some own.snapshotTerm
  config : own.snapshotConfig = e.node.configAt s
  faults : ∀ k, k ≠ .saveSnapshot → own.faults k = e.faults k

/-- The second engine is the first with its log folded at `s`. -/
def Folds (s : Nat) (e e' : Engine) : Prop := ∃ own, Fits s own e ∧ e' = e.foldedAt s own

section Queries

variable {s : Nat} {own : Own} {e : Engine}

theorem Fits.lastLogIndex (h : Fits s own e) :
    (e.foldedAt s own).node.lastLogIndex = e.node.lastLogIndex :=
  RaftNode.lastLogIndex_folded h.ge h.le

theorem Fits.entryAt (h : Fits s own e) {k : Nat} (hk : s < k) :
    (e.foldedAt s own).node.entryAt k = e.node.entryAt k :=
  RaftNode.entryAt_folded h.ge h.le hk

theorem Fits.termAt (h : Fits s own e) {k : Nat} (hk : s ≤ k) :
    (e.foldedAt s own).node.termAt k = e.node.termAt k :=
  RaftNode.termAt_folded h.ge h.le h.term hk

/-- Folding a prefix does not change the membership in force. -/
theorem Fits.latestConfig (h : Fits s own e) :
    (e.foldedAt s own).node.latestConfig.2 = e.node.latestConfig.2 := by
  have := RaftNode.latestConfig_folded (s := s) (t := own.snapshotTerm) h.indexed
  rw [← h.config] at this
  exact this

end Queries

/-! ## Helpers that leave the log alone -/

section Frames

variable {s : Nat} {e e' : Engine}

/-- The fields that decide whether an engine can be folded. -/
theorem Fits.of_eq {own : Own} (h : Fits s own e) (hlog : e'.node.log = e.node.log)
    (hi : e'.node.snapshotIndex = e.node.snapshotIndex)
    (ht : e'.node.snapshotTerm = e.node.snapshotTerm)
    (hc : e'.node.snapshotConfig = e.node.snapshotConfig)
    (hcommit : e.node.commitIndex ≤ e'.node.commitIndex) (hf : e'.faults = e.faults) :
    Fits s own e' where
  indexed := by
    unfold RaftNode.Indexed
    rw [hlog, hi]
    exact h.indexed
  ge := hi ▸ h.ge
  le := by
    unfold RaftNode.lastLogIndex
    rw [hlog, hi]
    exact h.le
  committed := h.committed.trans hcommit
  term := by
    rw [← h.term]
    unfold RaftNode.termAt RaftNode.lastLogIndex
    rw [hlog, hi, ht]
  config := by
    rw [h.config]
    unfold RaftNode.configAt
    rw [hlog, hc]
  faults := hf ▸ h.faults

/-- Storage and the index of the membership are the folded engine's own. -/
theorem Fits.own {own own' : Own} (h : Fits s own e)
    (ht : own'.snapshotTerm = own.snapshotTerm) (hc : own'.snapshotConfig = own.snapshotConfig)
    (hf : ∀ k, k ≠ .saveSnapshot → own'.faults k = own.faults k) : Fits s own' e :=
  { h with
    term := by rw [ht]; exact h.term
    config := by rw [hc]; exact h.config
    faults := fun k hk => (hf k hk).trans (h.faults k hk) }

theorem Folds.enterTerm (h : Folds s e e') (term : Nat) :
    Folds s (e.enterTerm term) (e'.enterTerm term) := by
  obtain ⟨own, fits, rfl⟩ := h
  exact ⟨own, fits.of_eq rfl rfl rfl rfl (Nat.le_refl _) rfl, rfl⟩

theorem Folds.stepDown (h : Folds s e e') : Folds s e.stepDown e'.stepDown := by
  obtain ⟨own, fits, rfl⟩ := h
  refine ⟨own, ?_, ?_⟩
  · unfold Engine.stepDown
    split <;> exact fits.of_eq rfl rfl rfl rfl (Nat.le_refl _) rfl
  · unfold Engine.stepDown
    by_cases hl : e.node.state = .leader
    · rw [if_pos hl, if_pos (show (e.foldedAt s own).node.state = .leader from hl)]
      rfl
    · rw [if_neg hl, if_neg (show ¬ (e.foldedAt s own).node.state = .leader from hl)]
      rfl

theorem Folds.resetElectionTimer (h : Folds s e e') :
    Folds s e.resetElectionTimer e'.resetElectionTimer := by
  obtain ⟨own, fits, rfl⟩ := h
  exact ⟨own, fits.of_eq rfl rfl rfl rfl (Nat.le_refl _) rfl, rfl⟩

theorem Folds.followLeader (h : Folds s e e') (leaderId : NodeId) (address : String) :
    Folds s (e.followLeader leaderId address) (e'.followLeader leaderId address) := by
  obtain ⟨own, fits, rfl⟩ := h
  exact ⟨own, fits.of_eq rfl rfl rfl rfl (Nat.le_refl _) rfl, rfl⟩

theorem Folds.startReplicator (h : Folds s e e') (peerId : NodeId) :
    Folds s (e.startReplicator peerId) (e'.startReplicator peerId) := by
  obtain ⟨own, fits, rfl⟩ := h
  have hlast := fits.lastLogIndex
  refine ⟨own, ?_, ?_⟩
  · unfold Engine.startReplicator
    split
    · exact fits
    · split <;> exact fits.of_eq rfl rfl rfl rfl (Nat.le_refl _) rfl
  · unfold Engine.startReplicator
    rw [hlast]
    by_cases hr : e.replicators.contains peerId = true
    · rw [if_pos hr, if_pos (show (e.foldedAt s own).replicators.contains peerId = true from hr)]
    · rw [if_neg hr, if_neg (show ¬ (e.foldedAt s own).replicators.contains peerId = true from hr)]
      by_cases hn : e.node.nextIndex.contains peerId = true
      · simp only [if_pos hn, if_pos (show (e.foldedAt s own).node.nextIndex.contains peerId = true
          from hn)]
        rfl
      · simp only [if_neg hn, if_neg (show ¬ (e.foldedAt s own).node.nextIndex.contains peerId = true
          from hn)]
        rfl

theorem Folds.startReplicators (h : Folds s e e') : Folds s e.startReplicators e'.startReplicators := by
  have htargets : e'.targets = e.targets := by
    obtain ⟨own, -, rfl⟩ := h
    rfl
  unfold Engine.startReplicators
  rw [htargets]
  clear htargets
  generalize e.targets.keys = peers
  induction peers generalizing e e' with
  | nil => exact h
  | cons p peers ih => exact ih (h.startReplicator p)

/-- Adopting a membership changes no more of the node than what a leader
tracks of its peers. -/
theorem refreshConfig_keeps {P : RaftNode → (StorageCall → List Bool) → Prop}
    (hP : ∀ n faults nextIndex matchIndex, P n faults →
      P { n with nextIndex := nextIndex, matchIndex := matchIndex } faults)
    (h : P e.node e.faults) : P e.refreshConfig.node e.refreshConfig.faults := by
  have hone (e : Engine) (p : NodeId) (h : P e.node e.faults) :
      P (e.startReplicator p).node (e.startReplicator p).faults := by
    unfold Engine.startReplicator
    split
    · exact h
    · split
      · exact h
      · exact hP _ _ _ _ h
  have hall (peers : List NodeId) : ∀ e : Engine, P e.node e.faults →
      P (peers.foldl Engine.startReplicator e).node (peers.foldl Engine.startReplicator e).faults := by
    induction peers with
    | nil =>
        intro e h
        exact h
    | cons p peers ih =>
        intro e h
        exact ih _ (hone e p h)
  unfold Engine.refreshConfig
  dsimp only
  split
  · exact h
  · split
    · exact hall _ _ h
    · exact h

theorem lastLogIndex_refreshConfig (e : Engine) :
    e.refreshConfig.node.lastLogIndex = e.node.lastLogIndex :=
  @refreshConfig_keeps e (fun n _ => n.lastLogIndex = e.node.lastLogIndex) (fun _ _ _ _ h => h) rfl

/-- The membership in force is adopted by both. -/
theorem Folds.refreshConfig (h : Folds s e e') : Folds s e.refreshConfig e'.refreshConfig := by
  obtain ⟨own, fits, rfl⟩ := h
  have hlatest := fits.latestConfig
  unfold Engine.refreshConfig
  cases hc : e.node.latestConfig with
  | mk index ms =>
      cases hc' : (e.foldedAt s own).node.latestConfig with
      | mk index' ms' =>
          rw [hc, hc'] at hlatest
          dsimp only at hlatest ⊢
          subst hlatest
          have hfits : Fits s { own with configIndex := index' } e :=
            fits.own rfl rfl fun _ _ => rfl
          by_cases hsame : (membersOf (ms'.getD [])).sameItems e.members = true
          · rw [if_pos hsame, if_pos (show (membersOf (ms'.getD [])).sameItems
              (e.foldedAt s own).members = true from hsame)]
            exact ⟨_, hfits.of_eq rfl rfl rfl rfl (Nat.le_refl _) rfl, rfl⟩
          · rw [if_neg hsame, if_neg (show ¬ (membersOf (ms'.getD [])).sameItems
              (e.foldedAt s own).members = true from hsame)]
            by_cases hl : e.node.state = .leader
            · rw [if_pos hl, if_pos (show (e.foldedAt s own).node.state = .leader from hl)]
              refine Folds.startReplicators ?_
              exact ⟨_, hfits.of_eq rfl rfl rfl rfl (Nat.le_refl _) rfl, rfl⟩
            · rw [if_neg hl, if_neg (show ¬ (e.foldedAt s own).node.state = .leader from hl)]
              exact ⟨_, hfits.of_eq rfl rfl rfl rfl (Nat.le_refl _) rfl, rfl⟩

end Frames

/-! ## Storage calls and the log -/

section Log

variable {s : Nat} {e e' : Engine}

theorem both_storageCall (h : Folds s e e') {k : StorageCall} (hk : k ≠ .saveSnapshot)
    (f g : MemoryRaftStorage → MemoryRaftStorage) :
    both (storageCall k f) (storageCall k g)
      (fun _ _ e₁ e₁' => Folds s e₁ e₁' ∧ e₁.node = e.node) (Folds s) e e' := by
  obtain ⟨own, fits, rfl⟩ := h
  have hf := fits.faults k hk
  have huse : Folds s (e.useFault k) ((e.foldedAt s own).useFault k) := by
    refine ⟨{ own with faults := ((e.foldedAt s own).useFault k).faults }, ?_, rfl⟩
    refine { fits with faults := fun j hj => ?_ }
    have := fits.faults j hj
    simp only [useFault, foldedAt, this]
  unfold storageCall
  rw [both_get_bind]
  refine both_ite ?_ (fun _ => ⟨rfl, huse⟩) fun _ => ?_
  · unfold Engine.raises
    rw [show (e.foldedAt s own).faults k = e.faults k from hf]
  · obtain ⟨own', fits', he'⟩ := huse
    rw [both_set, he']
    have hfits : Fits s { own' with storage := g own'.storage } (e.useFault k) :=
      fits'.own rfl rfl fun _ _ => rfl
    exact ⟨⟨_, hfits.of_eq rfl rfl rfl rfl (Nat.le_refl _) rfl, rfl⟩, rfl⟩

theorem both_becomeFollower (h : Folds s e e') (term : Nat) :
    both (becomeFollower term) (becomeFollower term) (fun _ _ => Folds s) (Folds s) e e' := by
  have hterm : e'.node.currentTerm = e.node.currentTerm := by
    obtain ⟨own, -, rfl⟩ := h
    rfl
  unfold becomeFollower
  rw [both_get_bind, hterm]
  refine both_ite Iff.rfl (fun _ => ?_) fun _ => h.stepDown
  rw [both_modify_bind]
  have hpersist : both persistTermAndVote persistTermAndVote (fun _ _ => Folds s) (Folds s)
      (e.enterTerm term) (e'.enterTerm term) := by
    unfold persistTermAndVote
    rw [both_get_bind]
    exact both_mono (both_storageCall (h.enterTerm term) (by decide) _ _)
      (fun _ _ _ _ h₁ => h₁.1) fun _ _ h₁ => h₁
  refine both_bind hpersist ?_
  intro _ _ e₁ e₁' h₁
  exact h₁.stepDown

theorem both_acceptLeader (h : Folds s e e') (term : Nat) (leaderId : NodeId) (address : String) :
    both (acceptLeader term leaderId address) (acceptLeader term leaderId address)
      (fun _ _ => Folds s) (Folds s) e e' := by
  have hcond : e'.node.currentTerm = e.node.currentTerm ∧ e'.node.state = e.node.state := by
    obtain ⟨own, -, rfl⟩ := h
    exact ⟨rfl, rfl⟩
  unfold acceptLeader
  rw [both_get_bind, hcond.1, hcond.2]
  refine both_ite Iff.rfl (fun _ => ?_) fun _ => ?_
  · refine both_bind (both_becomeFollower h term) ?_
    intro _ _ e₁ e₁' h₁
    exact h₁.followLeader leaderId address
  · exact h.resetElectionTimer.followLeader leaderId address

/-- Entries that continue a log at index `k`. -/
def ContinueAt (k : Nat) (entries : List LogEntry) : Prop :=
  ∀ j x, entries[j]? = some x → x.index = k + j

theorem ContinueAt.tail {k : Nat} {y : LogEntry} {rest : List LogEntry}
    (h : ContinueAt k (y :: rest)) : ContinueAt (k + 1) rest := by
  intro j x hx
  have := h (j + 1) x (by simpa using hx)
  omega

theorem ContinueAt.drop {k : Nat} {entries : List LogEntry} (h : ContinueAt k entries) (m : Nat) :
    ContinueAt (k + m) (entries.drop m) := by
  intro j x hx
  rw [List.getElem?_drop] at hx
  have := h _ x hx
  omega

/-- The membership at `s` is decided by the entries up to `s`. -/
theorem configAt_of_take {n n' : RaftNode} (hn : n.Indexed) (hn' : n'.Indexed) {k : Nat}
    (hi : n'.snapshotIndex = n.snapshotIndex) (hc : n'.snapshotConfig = n.snapshotConfig)
    (hlog : n'.log.take (k - n.snapshotIndex) = n.log.take (k - n.snapshotIndex)) :
    n'.configAt k = n.configAt k := by
  rw [configAt_eq_take hn, configAt_eq_take hn', hi, hc, hlog]

/-- Two logs with the same entries up to `s` have the same term there. -/
theorem termAt_of_take {n n' : RaftNode} {k : Nat} (hi : n'.snapshotIndex = n.snapshotIndex)
    (ht : n'.snapshotTerm = n.snapshotTerm) (hk : k ≤ n.lastLogIndex) (hk' : k ≤ n'.lastLogIndex)
    (hlog : n'.log.take (k - n.snapshotIndex) = n.log.take (k - n.snapshotIndex)) :
    n'.termAt k = n.termAt k := by
  unfold RaftNode.termAt
  rw [hi, ht]
  by_cases h0 : k = n.snapshotIndex
  · rw [if_pos h0, if_pos h0]
  · rw [if_neg h0, if_neg h0]
    by_cases hlt : k < n.snapshotIndex
    · rw [if_pos (Or.inl hlt), if_pos (Or.inl hlt)]
    · rw [if_neg (by omega), if_neg (by omega)]
      have hget (l : List LogEntry) : l[k - n.snapshotIndex - 1]?
          = (l.take (k - n.snapshotIndex))[k - n.snapshotIndex - 1]? := by
        rw [List.getElem?_take, if_pos (by omega)]
      rw [hget, hget n.log, hlog]

/-- A change of the log above `s`. -/
theorem Fits.change {own : Own} (fits : Fits s own e) {log : List LogEntry}
    (hindexed : RaftNode.Indexed { e.node with log := log })
    (htake : log.take (s - e.node.snapshotIndex) = e.node.log.take (s - e.node.snapshotIndex)) :
    Fits s own { e with node := { e.node with log := log } } := by
  have hle : s ≤ e.node.snapshotIndex + log.length := by
    have hlen := congrArg List.length htake
    rw [List.length_take, List.length_take, Nat.min_eq_left (RaftNode.length_le_of_le_lastLogIndex fits.le)] at hlen
    have := fits.ge
    omega
  exact
    { indexed := hindexed
      ge := fits.ge
      le := hle
      committed := fits.committed
      term := (@termAt_of_take e.node { e.node with log := log } s rfl rfl fits.le hle htake).trans
        fits.term
      config := fits.config.trans (configAt_of_take fits.indexed hindexed rfl rfl htake).symm
      faults := fits.faults }

theorem Folds.extendLog (h : Folds s e e') {entries : List LogEntry}
    (hc : ContinueAt (e.node.lastLogIndex + 1) entries) :
    Folds s (e.extendLog entries) (e'.extendLog entries) := by
  obtain ⟨own, fits, rfl⟩ := h
  have hlen := (RaftNode.length_le_of_le_lastLogIndex fits.le)
  refine ⟨own, fits.change ?_ (List.take_append_of_le_length hlen), ?_⟩
  · intro k x hx
    dsimp only at hx ⊢
    by_cases hk : k < e.node.log.length
    · rw [List.getElem?_append_left hk] at hx
      exact fits.indexed k x hx
    · rw [List.getElem?_append_right (by omega)] at hx
      have := hc _ x hx
      unfold RaftNode.lastLogIndex at this
      omega
  · unfold Engine.extendLog
    simp only [foldedAt, List.drop_append_of_le_length hlen]

theorem Folds.cutLog (h : Folds s e e') {index : Nat} (hs : s < index) :
    Folds s (e.cutLog index) (e'.cutLog index) := by
  obtain ⟨own, fits, rfl⟩ := h
  have hge := fits.ge
  obtain ⟨k, rfl⟩ : ∃ k, index = k + 1 := ⟨index - 1, by omega⟩
  have hlog : (e.node.truncateFrom (k + 1)).log = e.node.log.take (k - e.node.snapshotIndex) :=
    e.node.truncateFrom_log (by omega)
  have hlog' : ((e.foldedAt s own).node.truncateFrom (k + 1)).log
      = (e.node.log.drop (s - e.node.snapshotIndex)).take (k - s) :=
    (e.foldedAt s own).node.truncateFrom_log (show s ≤ k by omega)
  have hcut : e.cutLog (k + 1)
      = { e with node := { e.node with log := e.node.log.take (k - e.node.snapshotIndex) } } := by
    rw [← hlog]
    rfl
  have hcut' : (e.foldedAt s own).cutLog (k + 1)
      = { e.foldedAt s own with
          node := { (e.foldedAt s own).node with
            log := (e.node.log.drop (s - e.node.snapshotIndex)).take (k - s) } } := by
    rw [← hlog']
    rfl
  rw [hcut, hcut']
  refine ⟨own, fits.change ?_ ?_, ?_⟩
  · intro j x hx
    dsimp only at hx ⊢
    rw [List.getElem?_take] at hx
    split at hx
    · exact fits.indexed j x hx
    · cases hx
  · rw [List.take_take, Nat.min_eq_left (by omega)]
  · simp only [foldedAt, List.drop_take]
    rw [show k - e.node.snapshotIndex - (s - e.node.snapshotIndex) = k - s by omega]

theorem both_appendLocal (h : Folds s e e') {entries : List LogEntry}
    (hc : ContinueAt (e.node.lastLogIndex + 1) entries) :
    both (appendLocal entries) (appendLocal entries) (fun _ _ => Folds s) (Folds s) e e' := by
  unfold appendLocal
  rw [both_modify_bind]
  refine both_bind (both_storageCall (h.extendLog hc) (by decide) _ _) ?_
  intro _ _ e₁ e₁' h₁
  exact both_ite Iff.rfl (fun _ => h₁.1.refreshConfig) fun _ => h₁.1

theorem both_truncateLocal (h : Folds s e e') {index : Nat} (hs : s < index)
    (hlast : index ≤ e.node.lastLogIndex) :
    both (truncateLocal index) (truncateLocal index)
      (fun _ _ e₁ e₁' => Folds s e₁ e₁' ∧ e₁.node.lastLogIndex + 1 = index) (Folds s) e e' := by
  have hge : e.node.snapshotIndex ≤ s := by
    obtain ⟨own, fits, -⟩ := h
    exact fits.ge
  unfold truncateLocal
  rw [both_modify_bind]
  refine both_bind (both_storageCall (h.cutLog hs) (by decide) _ _) ?_
  intro _ _ e₁ e₁' h₁
  refine ⟨h₁.1.refreshConfig, ?_⟩
  obtain ⟨k, rfl⟩ : ∃ k, index = k + 1 := ⟨index - 1, by omega⟩
  have hlog : (e.node.truncateFrom (k + 1)).log = e.node.log.take (k - e.node.snapshotIndex) :=
    e.node.truncateFrom_log (by omega)
  rw [lastLogIndex_refreshConfig, h₁.2]
  unfold Engine.cutLog RaftNode.lastLogIndex
  unfold RaftNode.lastLogIndex at hlast
  dsimp only
  rw [hlog, List.length_take]
  change e.node.snapshotIndex + _ + 1 = _
  omega

/-! ## The loop over the entries -/

theorem termAt_eq_none_iff {n : RaftNode} {k : Nat} (hk : n.snapshotIndex ≤ k) :
    n.termAt k = none ↔ n.lastLogIndex < k := by
  unfold RaftNode.termAt
  by_cases h0 : k = n.snapshotIndex
  · rw [if_pos h0]
    have : n.snapshotIndex ≤ n.lastLogIndex := Nat.le_add_right _ _
    simp only [reduceCtorEq, false_iff, Nat.not_lt]
    omega
  · rw [if_neg h0]
    by_cases hlast : n.lastLogIndex < k
    · simp [hlast]
    · rw [if_neg (by omega), Option.map_eq_none_iff, List.getElem?_eq_none_iff]
      unfold RaftNode.lastLogIndex at hlast ⊢
      omega

/-- The log holds an entry with this index and term. -/
def RaftNode.Has (n : RaftNode) (x : LogEntry) : Prop := n.termAt x.index = some x.term

instance (n : RaftNode) (x : LogEntry) : Decidable (n.Has x) :=
  inferInstanceAs (Decidable (n.termAt x.index = some x.term))

/-- Entries the log holds are skipped. -/
theorem run_dropConflict_append {held : List LogEntry} (hh : ∀ x ∈ held, e.node.Has x)
    (rest : List LogEntry) :
    (dropConflict (held ++ rest)).run e = (dropConflict rest).run e := by
  induction held with
  | nil => rfl
  | cons x l ih =>
      have hx : e.node.termAt x.index = some x.term := hh x (by simp)
      have hstep : (dropConflict (x :: (l ++ rest))).run e = (dropConflict (l ++ rest)).run e := by
        rw [dropConflict, EStateM.run_bind]
        change EStateM.run (if e.node.termAt x.index = none then _ else _) e = _
        rw [if_neg (by rw [hx]; simp), if_neg (by rw [hx]; simp)]
      exact hstep.trans (ih fun y hy => hh y (by simp [hy]))

/-- Above the boundary both loops find the same. -/
theorem both_dropConflict (h : Folds s e e') {k : Nat} (hs : s ≤ k)
    (hk : k ≤ e.node.lastLogIndex) {entries : List LogEntry} (hc : ContinueAt (k + 1) entries) :
    both (dropConflict entries) (dropConflict entries)
      (fun a b e₁ e₁' => a = b ∧ Folds s e₁ e₁' ∧ ContinueAt (e₁.node.lastLogIndex + 1) a)
      (Folds s) e e' := by
  induction entries generalizing k with
  | nil => exact ⟨rfl, h, fun j x hx => by simp at hx⟩
  | cons y rest ih =>
      have hy : y.index = k + 1 := hc 0 y rfl
      have hterm : e'.node.termAt y.index = e.node.termAt y.index := by
        obtain ⟨own, fits, rfl⟩ := h
        exact fits.termAt (by omega)
      rw [dropConflict, both_get_bind, hterm]
      have hnone : e.node.termAt y.index = none ↔ e.node.lastLogIndex < k + 1 := by
        rw [hy]
        refine termAt_eq_none_iff ?_
        obtain ⟨own, fits, -⟩ := h
        exact fits.ge.trans (by omega)
      refine both_ite Iff.rfl (fun hend => ⟨rfl, h, ?_⟩) fun hin => ?_
      · -- our log ends before the entry
        have : e.node.lastLogIndex = k := by
          have := hnone.mp hend
          omega
        rw [this]
        exact hc
      · have hle : k + 1 ≤ e.node.lastLogIndex := by
          by_contra hlt
          exact hin (hnone.mpr (by omega))
        refine both_ite Iff.rfl (fun _ => ?_) fun _ => ih (by omega) hle hc.tail
        -- a conflicting tail
        refine both_bind (both_truncateLocal h (show s < y.index by omega) (by omega)) ?_
        intro _ _ e₁ e₁' h₁
        refine ⟨rfl, h₁.1, ?_⟩
        rw [h₁.2, hy]
        exact hc

theorem both_mergeEntries (h : Folds s e e') {k : Nat} (hs : s ≤ k)
    (hk : k ≤ e.node.lastLogIndex) {held entries : List LogEntry}
    (hh : ∀ x ∈ held, e.node.Has x) (hc : ContinueAt (k + 1) entries) :
    both (mergeEntries (held ++ entries)) (mergeEntries entries) (fun _ _ => Folds s) (Folds s)
      e e' := by
  unfold mergeEntries
  refine both_bind ((both_congr_left (run_dropConflict_append hh entries)).mpr
    (both_dropConflict h hs hk hc)) ?_
  rintro newEntries _ e₁ e₁' ⟨rfl, h₁, hc₁⟩
  exact both_ite Iff.rfl (fun _ => both_appendLocal h₁ hc₁) fun _ => h₁

/-- The commit index follows up to what was matched; that the second run
matched at least `s` makes no difference. -/
theorem Folds.followCommit (h : Folds s e e') (leaderCommit lastNew : Nat) :
    Folds s (e.followCommit leaderCommit lastNew) (e'.followCommit leaderCommit (max s lastNew)) := by
  obtain ⟨own, fits, rfl⟩ := h
  have hs := fits.committed
  have hmax : max e.node.commitIndex (min leaderCommit (max s lastNew))
      = max e.node.commitIndex (min leaderCommit lastNew) := by
    omega
  have hcommit : (e.foldedAt s own).node.commitIndex = e.node.commitIndex := rfl
  unfold Engine.followCommit
  rw [hcommit, hmax]
  by_cases hlt : e.node.commitIndex < leaderCommit
  · rw [if_pos hlt, if_pos hlt]
    exact ⟨own, fits.of_eq rfl rfl rfl rfl (Nat.le_max_left _ _) rfl, rfl⟩
  · rw [if_neg hlt, if_neg hlt]
    exact ⟨own, fits, rfl⟩

end Log

/-! ## The handler -/

/-- What every node keeps of its log and its indexes. -/
structure RaftNode.InOrder (n : RaftNode) : Prop where
  indexed : n.Indexed
  snapshot_le : n.snapshotIndex ≤ n.lastApplied
  applied_le : n.lastApplied ≤ n.commitIndex
  commit_le : n.commitIndex ≤ n.lastLogIndex

/-- The entries of a request have consecutive indexes, and up to `s` the
request agrees with the log, as far as the log is there. -/
structure AgreesThrough (n : RaftNode) (s : Nat) (req : AppendEntriesRequest) : Prop where
  consecutive : ContinueAt (req.prevLogIndex + 1) req.entries
  prev : n.snapshotIndex ≤ req.prevLogIndex → req.prevLogIndex ≤ s →
    n.termAt req.prevLogIndex = req.prevLogTerm
  entries : ∀ x ∈ req.entries, n.snapshotIndex < x.index → x.index ≤ s → n.Has x

/-- The same answer, but for the index a compacted log matches anyway. -/
structure SameAnswer (s : Nat) (r r' : AppendEntriesResponse) : Prop where
  success : r'.success = r.success
  term : r'.term = r.term
  matchIndex : r.success = true → r'.matchIndex = max s r.matchIndex

/-- The same node above index `s`. -/
structure SameAbove (s : Nat) (e e' : Engine) : Prop where
  currentTerm : e'.node.currentTerm = e.node.currentTerm
  state : e'.node.state = e.node.state
  members : e'.members = e.members
  commitIndex : e'.node.commitIndex = e.node.commitIndex
  lastLogIndex : e'.node.lastLogIndex = e.node.lastLogIndex
  entryAt : ∀ k, s < k → e'.node.entryAt k = e.node.entryAt k

/-- `_maybe_snapshot` at an index of choice: fold the entries up to there,
unless they are folded already. -/
def compactTo (index : Nat) : EngineM Unit := do
  let e ← get
  if index ≤ e.node.snapshotIndex then
    pure ()
  else
    let term := (e.node.termAt index).getD 0
    let config := e.node.configAt index
    modify (·.compact index term config)
    storageCall .saveSnapshot fun s => s.saveSnapshot index term e.node.lastApplied config

section Handler

variable {s : Nat} {e e' : Engine} {req : AppendEntriesRequest}

theorem Folds.sameAbove (h : Folds s e e') : SameAbove s e e' := by
  obtain ⟨own, fits, rfl⟩ := h
  exact
    { currentTerm := rfl
      state := rfl
      members := rfl
      commitIndex := rfl
      lastLogIndex := fits.lastLogIndex
      entryAt := fun _ hk => fits.entryAt hk }

/-- The engine compacts where the applier has got to. -/
theorem maybeSnapshot_eq {threshold : Nat} (h0 : threshold ≠ 0)
    (h : threshold ≤ e.node.lastApplied - e.node.snapshotIndex) :
    (maybeSnapshot threshold).run e = (compactTo e.node.lastApplied).run e := by
  unfold maybeSnapshot compactTo
  rw [EStateM.run_bind, EStateM.run_bind]
  change EStateM.run (if _ then _ else _) e = EStateM.run (if _ then _ else _) e
  rw [if_neg (by omega), if_neg (by omega)]

theorem after_compactTo (h : s ≤ e.node.snapshotIndex) : after (compactTo s) e = e := by
  rw [← wp_after (P := (· = e))]
  unfold compactTo
  rw [wp_bind, wp_get, if_pos h, wp_pure]

/-- Compaction folds the log, whether or not it can be stored. -/
theorem folds_compactTo (ho : e.node.InOrder) (hs : s ≤ e.node.lastApplied) :
    Folds (max s e.node.snapshotIndex) e (after (compactTo s) e) := by
  have hsnap := ho.snapshot_le
  have happ := ho.applied_le
  have hcommit := ho.commit_le
  by_cases hcov : s ≤ e.node.snapshotIndex
  · have hzero : e.node.snapshotIndex - e.node.snapshotIndex = 0 := Nat.sub_self _
    rw [after_compactTo hcov, Nat.max_eq_right hcov]
    refine ⟨⟨e.node.snapshotTerm, e.node.snapshotConfig, e.storage, e.faults, e.configIndex⟩, ?_, ?_⟩
    · exact
        { indexed := ho.indexed
          ge := Nat.le_refl _
          le := by omega
          committed := by omega
          term := by simp [RaftNode.termAt]
          config := by
            rw [configAt_eq_take ho.indexed, hzero]
            rfl
          faults := fun _ _ => rfl }
    · unfold foldedAt
      rw [hzero, List.drop_zero]
  · have hlt : e.node.snapshotIndex < s := Nat.lt_of_not_le hcov
    rw [Nat.max_eq_left (Nat.le_of_lt hlt)]
    obtain ⟨term, hterm⟩ : ∃ term, e.node.termAt s = some term := by
      cases ht : e.node.termAt s with
      | some term => exact ⟨term, rfl⟩
      | none =>
          have := (termAt_eq_none_iff (Nat.le_of_lt hlt)).mp ht
          omega
    have hfits (storage : MemoryRaftStorage) (faults : StorageCall → List Bool)
        (hf : ∀ k, k ≠ .saveSnapshot → faults k = e.faults k) :
        Fits s ⟨term, e.node.configAt s, storage, faults, e.configIndex⟩ e :=
      { indexed := ho.indexed
        ge := Nat.le_of_lt hlt
        le := by omega
        committed := by omega
        term := hterm
        config := rfl
        faults := hf }
    have hfolded : e.compact s term (e.node.configAt s)
        = e.foldedAt s ⟨term, e.node.configAt s, e.storage, e.faults, e.configIndex⟩ := by
      have hlog := e.node.compactThrough_log (e.node.configAt s) (Nat.le_of_lt hlt) hterm
      unfold Engine.compact foldedAt
      rw [← hlog]
      simp only [RaftNode.compactThrough, Option.or_self]
    have huse (c : Engine) (k : StorageCall) (hk : k ≠ .saveSnapshot) :
        (c.useFault .saveSnapshot).faults k = c.faults k := if_neg hk
    rw [← wp_after (P := (Folds s e ·))]
    unfold compactTo
    rw [wp_bind, wp_get, if_neg hcov, hterm, Option.getD_some, wp_bind, wp_modify, hfolded]
    unfold storageCall
    simp only [wp_bind, wp_get, wp_ite, wp_set, wp_throw]
    split
    · exact ⟨_, hfits _ _ (huse _), rfl⟩
    · exact ⟨_, hfits _ _ (huse _), rfl⟩

/-- The accepting half of the handler, where the first run has entries the
second has folded. -/
theorem both_appendFrom (h : Folds s e e') {k p p' : Nat} (hs : s ≤ k)
    (hk : k ≤ e.node.lastLogIndex) {held entries : List LogEntry}
    (hh : ∀ x ∈ held, e.node.Has x) (hc : ContinueAt (k + 1) entries)
    (hlen : p' + entries.length = max s (p + (held ++ entries).length)) :
    both (appendFrom req (held ++ entries) p) (appendFrom req entries p')
      (fun r r' e₁ e₁' => SameAnswer s r r' ∧ Folds s e₁ e₁') (Folds s) e e' := by
  unfold appendFrom
  refine both_bind (both_mergeEntries h hs hk hh hc) ?_
  intro _ _ e₁ e₁' h₁
  rw [hlen, both_modify_bind, both_get_bind]
  have h₂ := h₁.followCommit req.leaderCommit (p + (held ++ entries).length)
  refine ⟨⟨rfl, ?_, fun _ => rfl⟩, h₂⟩
  exact h₂.sameAbove.currentTerm

/-- The log of a node is that of `n`. -/
structure SameLog (n : RaftNode) (e : Engine) : Prop where
  log : e.node.log = n.log
  snapshotIndex : e.node.snapshotIndex = n.snapshotIndex
  snapshotTerm : e.node.snapshotTerm = n.snapshotTerm

theorem SameLog.termAt {n : RaftNode} (h : SameLog n e) (k : Nat) : e.node.termAt k = n.termAt k := by
  unfold RaftNode.termAt RaftNode.lastLogIndex
  rw [h.log, h.snapshotIndex, h.snapshotTerm]

theorem SameLog.stepDown {n : RaftNode} (h : SameLog n e) : SameLog n e.stepDown := by
  unfold Engine.stepDown
  split <;> exact ⟨h.log, h.snapshotIndex, h.snapshotTerm⟩

/-- Accepting a leader leaves the log alone. -/
theorem sameLog_acceptLeader (n : RaftNode) (term : Nat) (leaderId : NodeId) (address : String) :
    Keeps (SameLog n) (acceptLeader term leaderId address) := by
  have hfollow : Keeps (SameLog n) (becomeFollower term) := by
    intro e h
    unfold becomeFollower persistTermAndVote
    simp only [wp_bind, wp_get, wp_ite, wp_modify, wp_storageCall]
    have hterm : SameLog n (e.enterTerm term) := ⟨h.log, h.snapshotIndex, h.snapshotTerm⟩
    split
    · split
      · exact ⟨h.log, h.snapshotIndex, h.snapshotTerm⟩
      · exact SameLog.stepDown ⟨h.log, h.snapshotIndex, h.snapshotTerm⟩
    · exact h.stepDown
  intro e h
  unfold acceptLeader
  simp only [wp_bind, wp_get, wp_ite, wp_modify]
  split
  · refine wp_mono (hfollow e h) (fun _ _ h₁ => ?_) fun _ _ h₁ => h₁
    exact ⟨h₁.log, h₁.snapshotIndex, h₁.snapshotTerm⟩
  · exact ⟨h.log, h.snapshotIndex, h.snapshotTerm⟩

/-- The handler from the consistency check on. -/
def checkAndAppend (req : AppendEntriesRequest) : EngineM AppendEntriesResponse := do
  let e ← get
  let n := e.node
  let (entries, prevIndex, prevTerm) := n.skipCovered req
  if n.lastLogIndex < prevIndex then
    return { term := n.currentTerm, success := false, conflictIndex := n.lastLogIndex + 1 }
  else if n.termAt prevIndex ≠ prevTerm then
    return { term := n.currentTerm, success := false
             conflictIndex := n.firstOfTerm (n.termAt prevIndex) prevIndex }
  else
    appendFrom req entries prevIndex

theorem handleAppendEntries_eq (req : AppendEntriesRequest) :
    handleAppendEntries req = (do
      let e ← get
      if req.term < e.node.currentTerm then
        return { term := e.node.currentTerm, success := false }
      else
        acceptLeader req.term req.leaderId req.leaderAddress
        checkAndAppend req) := rfl

/-- A request that agrees with the log up to `s`, handled by both. -/
theorem both_checkAndAppend (h : Folds s e e') (hc : ContinueAt (req.prevLogIndex + 1) req.entries)
    (hprev : e.node.snapshotIndex ≤ req.prevLogIndex → req.prevLogIndex < s →
      e.node.termAt req.prevLogIndex = req.prevLogTerm)
    (hentries : ∀ x ∈ req.entries, e.node.snapshotIndex < x.index → x.index ≤ s → e.node.Has x) :
    both (checkAndAppend req) (checkAndAppend req)
      (fun r r' e₁ e₁' => SameAnswer s r r' ∧ Folds s e₁ e₁') (Folds s) e e' := by
  have hlast := h.sameAbove.lastLogIndex
  have hcur := h.sameAbove.currentTerm
  have hbound : e.node.snapshotIndex ≤ s ∧ s ≤ e.node.lastLogIndex := by
    obtain ⟨own, fits, -⟩ := h
    exact ⟨fits.ge, fits.le⟩
  have hsnap' : e'.node.snapshotIndex = s := by
    obtain ⟨own, -, rfl⟩ := h
    rfl
  have hterm' : ∀ k, s ≤ k → e'.node.termAt k = e.node.termAt k := by
    obtain ⟨own, fits, rfl⟩ := h
    exact fun _ hk => fits.termAt hk
  unfold checkAndAppend
  rw [both_get_bind]
  dsimp only
  rw [hlast, hcur]
  by_cases hlt : req.prevLogIndex < s
  · -- the first run skips up to `p`, the second up to `s`
    have hself : e'.node.termAt s = some e'.node.snapshotTerm := by
      unfold RaftNode.termAt
      rw [hsnap', if_pos rfl]
    have hskip' : e'.node.skipCovered req
        = (req.entries.drop (s - req.prevLogIndex), s, e'.node.termAt s) := by
      unfold RaftNode.skipCovered
      rw [hsnap', if_pos hlt, hself]
    obtain ⟨p, hp, hps, hbp, hskip⟩ : ∃ p, req.prevLogIndex ≤ p ∧ p ≤ s ∧
        e.node.snapshotIndex ≤ p ∧
        e.node.skipCovered req = (req.entries.drop (p - req.prevLogIndex), p, e.node.termAt p) := by
      by_cases hb : req.prevLogIndex < e.node.snapshotIndex
      · refine ⟨e.node.snapshotIndex, Nat.le_of_lt hb, hbound.1, Nat.le_refl _, ?_⟩
        unfold RaftNode.skipCovered
        rw [if_pos hb]
        simp [RaftNode.termAt]
      · refine ⟨req.prevLogIndex, Nat.le_refl _, Nat.le_of_lt hlt, Nat.le_of_not_lt hb, ?_⟩
        unfold RaftNode.skipCovered
        rw [if_neg hb, Nat.sub_self, List.drop_zero, hprev (Nat.le_of_not_lt hb) hlt]
    have hsplit : req.entries.drop (p - req.prevLogIndex)
        = (req.entries.drop (p - req.prevLogIndex)).take (s - p)
          ++ req.entries.drop (s - req.prevLogIndex) := by
      rw [show s - req.prevLogIndex = (p - req.prevLogIndex) + (s - p) by omega, ← List.drop_drop,
        List.take_append_drop]
    have hheld : ∀ x ∈ (req.entries.drop (p - req.prevLogIndex)).take (s - p), e.node.Has x := by
      intro x hx
      obtain ⟨j, hj⟩ := List.mem_iff_getElem?.mp hx
      rw [List.getElem?_take] at hj
      split at hj
      · have hidx := hc.drop (p - req.prevLogIndex) j x hj
        refine hentries x (List.mem_of_mem_drop (List.mem_of_mem_take hx)) (by omega) (by omega)
      · cases hj
    have hrest : ContinueAt (s + 1) (req.entries.drop (s - req.prevLogIndex)) := by
      have := hc.drop (s - req.prevLogIndex)
      rwa [show req.prevLogIndex + 1 + (s - req.prevLogIndex) = s + 1 by omega] at this
    rw [hskip, hskip']
    dsimp only
    rw [if_neg (show ¬ e.node.lastLogIndex < p by omega),
      if_neg (show ¬ e.node.lastLogIndex < s by omega), if_neg (by simp), if_neg (by simp), hsplit]
    refine both_appendFrom h (Nat.le_refl s) hbound.2 hheld hrest ?_
    rw [← hsplit, List.length_drop, List.length_drop]
    omega
  · -- nothing to skip, and the logs are the same from there on
    have hsame (n : RaftNode) (hn : n.snapshotIndex ≤ s) :
        n.skipCovered req = (req.entries, req.prevLogIndex, req.prevLogTerm) :=
      if_neg (by omega)
    rw [hsame e.node hbound.1, hsame e'.node (Nat.le_of_eq hsnap')]
    dsimp only
    rw [hterm' _ (Nat.le_of_not_lt hlt)]
    refine both_ite Iff.rfl (fun _ => ⟨⟨rfl, rfl, fun hs => by cases hs⟩, h⟩) fun hle => ?_
    refine both_ite Iff.rfl (fun _ => ⟨⟨rfl, rfl, fun hs => by cases hs⟩, h⟩) fun _ => ?_
    refine both_appendFrom h (Nat.le_of_not_lt hlt) (Nat.le_of_not_lt hle)
      (fun x (hx : x ∈ []) => by cases hx) hc ?_
    rw [List.nil_append]
    omega

theorem both_handleAppendEntries (h : Folds s e e') (hc : ContinueAt (req.prevLogIndex + 1) req.entries)
    (hprev : e.node.snapshotIndex ≤ req.prevLogIndex → req.prevLogIndex < s →
      e.node.termAt req.prevLogIndex = req.prevLogTerm)
    (hentries : ∀ x ∈ req.entries, e.node.snapshotIndex < x.index → x.index ≤ s → e.node.Has x) :
    both (handleAppendEntries req) (handleAppendEntries req)
      (fun r r' e₁ e₁' => SameAnswer s r r' ∧ Folds s e₁ e₁') (Folds s) e e' := by
  have hcur := h.sameAbove.currentTerm
  rw [handleAppendEntries_eq, both_get_bind, hcur]
  refine both_ite Iff.rfl (fun _ => ⟨⟨rfl, rfl, fun hs => nomatch hs⟩, h⟩) fun _ => ?_
  have haccept := both_and_left (both_acceptLeader h req.term req.leaderId req.leaderAddress)
    (sameLog_acceptLeader e.node req.term req.leaderId req.leaderAddress e ⟨rfl, rfl, rfl⟩)
  refine both_bind haccept ?_
  rintro _ _ e₁ e₁' ⟨h₁, hlog⟩
  refine both_checkAndAppend h₁ hc ?_ ?_
  · rw [hlog.snapshotIndex, hlog.termAt]
    exact hprev
  · unfold RaftNode.Has
    rw [hlog.snapshotIndex]
    simp only [hlog.termAt]
    exact hentries

/-- Compacting the log through an applied index does not change how an
AppendEntries request is handled that agrees with what was compacted. -/
theorem compaction_is_invisible (ho : e.node.InOrder) (hs : s ≤ e.node.lastApplied)
    (ha : AgreesThrough e.node s req) :
    both (handleAppendEntries req) (handleAppendEntries req)
      (fun r r' e₁ e₁' => SameAnswer s r r' ∧ SameAbove s e₁ e₁') (SameAbove s)
      e (after (compactTo s) e) := by
  have hfolds := folds_compactTo ho hs
  have hboth := both_handleAppendEntries hfolds ha.consecutive
    (fun hge hlt => ha.prev hge (by omega)) fun x hx hgt hle => ha.entries x hx hgt (by omega)
  by_cases hcov : s ≤ e.node.snapshotIndex
  · -- both runs are the same
    rw [after_compactTo hcov, Nat.max_eq_right hcov] at hboth
    rw [after_compactTo hcov]
    have hself (e₁ : Engine) : SameAbove s e₁ e₁ := ⟨rfl, rfl, rfl, rfl, rfl, fun _ _ => rfl⟩
    unfold both at hboth ⊢
    generalize (handleAppendEntries req).run e = x at hboth
    cases x with
    | error err e₁ => exact ⟨rfl, hself e₁⟩
    | ok r e₁ =>
        refine ⟨⟨rfl, rfl, fun hsuccess => ?_⟩, hself e₁⟩
        have := hboth.1.matchIndex hsuccess
        omega
  · rw [Nat.max_eq_left (by omega)] at hboth
    exact both_mono hboth (fun _ _ _ _ h => ⟨h.1, h.2.sameAbove⟩) fun _ _ h => h.sameAbove

/-- A follower with two entries of which one is applied. -/
def lagging : Engine where
  settings := trio.settings "b"
  node :=
    { currentTerm := 1
      log := [firstNoop, ⟨1, 2, .write "SET k v", "zoe", ""⟩]
      commitIndex := 1
      lastApplied := 1 }

/-- A request that starts before what `lagging` has applied and ends after
its log. -/
def acrossBoundary : AppendEntriesRequest where
  term := 1
  leaderId := "a"
  prevLogIndex := 0
  prevLogTerm := some 0
  entries := [firstNoop, ⟨1, 2, .write "SET k v", "zoe", ""⟩, ⟨1, 3, .write "SET k w", "zoe", ""⟩]
  leaderCommit := 2

theorem compaction_is_invisible_across :
    both (handleAppendEntries acrossBoundary) (handleAppendEntries acrossBoundary)
      (fun r r' e₁ e₁' => SameAnswer 1 r r' ∧ SameAbove 1 e₁ e₁') (SameAbove 1)
      lagging (after (compactTo 1) lagging) := by
  have hindexed : ∀ k < 2, ∀ x, lagging.node.log[k]? = some x → x.index = k + 1 := by decide
  refine compaction_is_invisible ⟨?_, by decide, by decide, by decide⟩ (by decide) ⟨?_, ?_, ?_⟩
  · intro k x hx
    have hk : k < 2 := (List.getElem?_eq_some_iff.mp hx).1
    have := hindexed k hk x hx
    change x.index = 0 + k + 1
    omega
  · have hentries : ∀ j < 3, ∀ x, acrossBoundary.entries[j]? = some x → x.index = 1 + j := by decide
    intro j x hx
    exact hentries j (List.getElem?_eq_some_iff.mp hx).1 x hx
  · intro _ _
    decide
  · decide

end Handler

/-- The hypothesis holds of every node of a cluster at any point of a run. -/
theorem nodes_in_order (c : Cluster) {evs : List WorldEvent}
    (hfix : ∀ ev ∈ evs, ev.FixedMembership) (i : NodeId) :
    (((World.init c).run c evs).engines i).node.InOrder := by
  obtain ⟨h, -, hw⟩ := (init_rel c).run hfix
  have r := hw.nodes i
  have v : (((World.init c).run c evs).engines i).node.Shows (h.log i) := r.shows
  refine ⟨?_, r.snapshot_le, r.applied_le, ?_⟩
  · intro k x hx
    rw [v.log_eq, List.getElem?_drop] at hx
    exact (hw.clean.backed (hw.ok.backed i)).1 _ x hx
  · rw [v.lastLogIndex]
    exact r.commit_le

end KvCache

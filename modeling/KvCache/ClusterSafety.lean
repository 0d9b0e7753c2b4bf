import Mathlib.Logic.Relation
import KvCache.ClusterNode

/-!
# Safety of a cluster with fixed membership

A world is related to a history (`WorldRel`) when every node and every packet
is. One event moves the history along (`WorldRel.step`), so every reachable
world has one, and two worlds of one run have histories of which the later
extends the earlier (`exists_later`). The safety properties are then read
off: one winner a term, one log for each term, and committed prefixes that
every later leader has.
-/

namespace KvCache

open QuorumLog QuorumLog.History StateWp Engine

/-- What a world is, in terms of the history. -/
structure WorldRel (c : Cluster) (h : Hist) (w : World) : Prop where
  ok : c.HistOk h
  clean : LeadsClean h
  nodes : ∀ i, NodeRel c h i (w.engines i).core
  net : ∀ p ∈ w.net, p.Ok c h
  applied : ∀ i k y, (i, k, y) ∈ w.applied → Decided c h k y

/-- `h'` extends `h` by moves of any nodes. -/
def Later (h h' : Hist) : Prop := Relation.ReflTransGen (fun a b => ∃ i, Grows i a b) h h'

section Safety

variable {c : Cluster} {h h' : Hist} {w : World} {i j : NodeId}

theorem Later.settled (l : Later h h') {t : Nat} {p : List LogEntry} (hp : c.Settled h t p) :
    c.Settled h' t p := by
  induction l with
  | refl => exact hp
  | tail _ g ih =>
      obtain ⟨i, g⟩ := g
      exact g.settled (Nat.le_refl _) ih

theorem Later.elected (l : Later h h') {t : Nat} {v : NodeId} {b : List LogEntry}
    (hb : h.elected t v b) : h'.elected t v b := by
  induction l with
  | refl => exact hb
  | tail _ g ih =>
      obtain ⟨i, g⟩ := g
      exact g.elected ih

theorem Later.cur_le (l : Later h h') (v : NodeId) : h.cur v ≤ h'.cur v := by
  induction l with
  | refl => exact Nat.le_refl _
  | tail _ g ih =>
      obtain ⟨i, g⟩ := g
      exact ih.trans (g.cur_le v)

/-! ## Every event -/

/-- A new entry under application is decided. -/
theorem handed_decided {e e' : Engine} (r : NodeRel c h i e'.core) {k : Nat} {y : LogEntry}
    (hk : (k, y) ∈ e.handed e') : Decided c h k y := by
  unfold Engine.handed at hk
  split at hk
  · rename_i hl
    obtain ⟨rfl, rfl⟩ := Prod.mk.inj (List.mem_singleton.mp hk)
    exact (r.applying _ _ hl).2
  · cases hk

theorem WorldRel.act (hw : WorldRel c h w) (hi : i ∈ c.ids) {ev : NodeEvent}
    (hev : ev.Right c h (w.engines i)) : ∃ h', Grows i h h' ∧ WorldRel c h' (w.act i ev) := by
  obtain ⟨h', g, ok, cl, r⟩ := (hw.nodes i).step hi hw.ok hw.clean hev
  refine ⟨h', g, ok, cl, fun j => ?_, fun p hp => ?_, fun j k y hk => ?_⟩
  · by_cases hj : j = i
    · subst hj
      simp only [World.act, Function.update_self]
      exact r.setQueues r.applying r.installing (fun _ hy => Or.inl hy) (fun _ hy => Or.inl hy)
        (fun _ hy => Or.inl hy) fun _ hp => nomatch hp
    · simp only [World.act, Function.update_of_ne hj]
      exact (hw.nodes j).mono g hj
  · rcases List.mem_append.mp hp with hp | hp
    · exact (hw.net p hp).mono g
    · exact r.queues.outbox p hp
  · rcases List.mem_append.mp hk with hk | hk
    · exact (hw.applied j k y hk).mono g
    · obtain ⟨⟨k', y'⟩, hky, heq⟩ := List.mem_map.mp hk
      obtain ⟨-, rfl, rfl⟩ : i = j ∧ k' = k ∧ y' = y := by simpa using heq
      exact handed_decided r hky

/-- One event moves the history along. -/
theorem WorldRel.step (hw : WorldRel c h w) {ev : WorldEvent} (hev : ev.FixedMembership) :
    ∃ h', Later h h' ∧ WorldRel c h' (w.step c ev) := by
  have hstay : ∃ h', Later h h' ∧ WorldRel c h' w := ⟨h, Relation.ReflTransGen.refl, hw⟩
  cases ev with
  | act i action =>
      simp only [World.step]
      split
      · rename_i hi
        have hright : (NodeEvent.act action).Right c h (w.engines i) := hev
        obtain ⟨h', g, hw'⟩ := hw.act hi hright
        exact ⟨h', Relation.ReflTransGen.single ⟨i, g⟩, hw'⟩
      · exact hstay
  | deliver i k =>
      simp only [World.step]
      split
      · rename_i p hp
        split
        · rename_i hr
          have hright : (NodeEvent.receive p).Right c h (w.engines i) :=
            ⟨hw.net p (List.mem_of_getElem? hp), hr.2⟩
          obtain ⟨h', g, hw'⟩ := hw.act hr.1 hright
          exact ⟨h', Relation.ReflTransGen.single ⟨i, g⟩, hw'⟩
        · exact hstay
      · exact hstay

/-- Every run moves the history along. -/
theorem WorldRel.run (hw : WorldRel c h w) {evs : List WorldEvent}
    (hev : ∀ ev ∈ evs, ev.FixedMembership) :
    ∃ h', Later h h' ∧ WorldRel c h' (w.run c evs) := by
  induction evs generalizing h w with
  | nil => exact ⟨h, Relation.ReflTransGen.refl, hw⟩
  | cons ev evs ih =>
      obtain ⟨h₁, l₁, hw₁⟩ := hw.step (hev ev (by simp))
      obtain ⟨h₂, l₂, hw₂⟩ := ih hw₁ fun ev' hm => hev ev' (by simp [hm])
      exact ⟨h₂, l₁.trans l₂, hw₂⟩

theorem init_rel (c : Cluster) : WorldRel c QuorumLog.History.empty (World.init c) where
  ok := empty_ok
  clean t hw := by
    obtain ⟨_, _, hf⟩ := hw
    exact hf.elim
  nodes i := boot_rel c i
  net _ hp := nomatch hp
  applied _ _ _ hk := nomatch hk

/-- Two worlds of one run and the histories behind them. -/
theorem exists_later (c : Cluster) {evs evs' : List WorldEvent}
    (hev : ∀ ev ∈ evs ++ evs', ev.FixedMembership) :
    ∃ h h', Later h h' ∧ WorldRel c h ((World.init c).run c evs) ∧
      WorldRel c h' (((World.init c).run c evs).run c evs') := by
  obtain ⟨h, -, hw⟩ := (init_rel c).run fun ev hm => hev ev (List.mem_append_left evs' hm)
  obtain ⟨h', l, hw'⟩ := hw.run fun ev hm => hev ev (List.mem_append_right evs hm)
  exact ⟨h, h', l, hw, hw'⟩

/-! ## One leader a term -/

/-- Two leaders of one term, now or earlier in the run, are one node. -/
theorem leader_unique (hw : WorldRel c h w) {w' : World} (hw' : WorldRel c h' w')
    (l : Later h h') (hi : (w.engines i).node.state = .leader)
    (hj : (w'.engines j).node.state = .leader)
    (ht : (w.engines i).node.currentTerm = (w'.engines j).node.currentTerm) : i = j := by
  obtain ⟨b, hb⟩ := ((hw.nodes i).leader hi).elected
  obtain ⟨b', hb'⟩ := ((hw'.nodes j).leader hj).elected
  have hb₁ : h'.elected (w'.engines j).node.currentTerm i b := ht ▸ l.elected hb
  exact (hw'.ok.elected_unique hb₁ hb').1

/-! ## Equal terms, equal logs -/

/-- Where the entries of two backed logs have the same position and term, the
logs agree up to there. -/
theorem backed_agree {l l' : List LogEntry} (hl : h.Backed LogEntry.term l)
    (hl' : h.Backed LogEntry.term l') {k : Nat} {y z : LogEntry} (hy : l[k]? = some y)
    (hz : l'[k]? = some z) (ht : y.term = z.term) : l.take (k + 1) = l'.take (k + 1) := by
  have hlen : ∀ {m : List LogEntry} {u : LogEntry}, m[k]? = some u → (m.take (k + 1)).length = k + 1 :=
    fun hu => List.length_take_of_le (List.getElem?_eq_some_iff.mp hu).1
  have hb := hl.shorten (List.take_prefix (k + 1) l)
  have hb' := hl'.shorten (List.take_prefix (k + 1) l')
  have hne : l.take (k + 1) ≠ [] := List.ne_nil_of_length_pos (by rw [hlen hy]; omega)
  refine (hb.prefix_of_lastTerm hb' hne ?_ ?_).eq_of_length ?_
  · exact (lastTerm_take hz).trans (ht.symm.trans (lastTerm_take hy).symm)
  · rw [hlen hy, hlen hz]
  · rw [hlen hy, hlen hz]

/-- An entry of a node's log stands in its full log where its index says. -/
theorem NodeRel.mem_log {e : Engine} (ok : c.HistOk h) (cl : LeadsClean h)
    (r : NodeRel c h i e.core) {y : LogEntry} (hy : y ∈ e.node.log) :
    0 < y.index ∧ (h.log i)[y.index - 1]? = some y := by
  have v : e.node.Shows (h.log i) := r.shows
  rw [v.log_eq] at hy
  obtain ⟨k, hk⟩ := List.mem_iff_getElem?.mp hy
  rw [List.getElem?_drop] at hk
  have := (cl.backed (ok.backed i)).1 _ y hk
  rw [this]
  exact ⟨Nat.succ_pos _, hk⟩

/-! ## Committed entries stay -/

/-- A committed entry is in the log of every leader from that term on, or
covered by its snapshot. -/
theorem leader_has (hw : WorldRel c h w) {w' : World} (hw' : WorldRel c h' w') (l : Later h h')
    {k : Nat} {y : LogEntry} (hy : (w.engines i).node.entryAt k = some y)
    (hk : k ≤ (w.engines i).node.commitIndex) (hj : (w'.engines j).node.state = .leader)
    (ht : (w.engines i).node.currentTerm ≤ (w'.engines j).node.currentTerm) :
    (w'.engines j).node.entryAt k = some y ∨ k ≤ (w'.engines j).node.snapshotIndex := by
  have v : (w.engines i).node.Shows (h.log i) := (hw.nodes i).shows
  have v' : (w'.engines j).node.Shows (h'.log j) := (hw'.nodes j).shows
  have hl := (hw'.nodes j).leader hj
  obtain ⟨b, hb⟩ := hl.elected
  have hset := l.settled (hw.nodes i).commit
  refine v.entryAt_of_shared v' ?_ hk hy
  rw [hl.log]
  exact hw'.ok.settled_prefix_lead c.quorum_inter hset ⟨j, b, hb⟩ ht

/-- While the commit index does not fall, what it covers stays in the log. -/
theorem NodeRel.keeps_committed {e e' : Engine} (ok : c.HistOk h') (r : NodeRel c h i e.core)
    (r' : NodeRel c h' i e'.core) (l : Later h h')
    (ha : e.node.commitIndex ≤ e'.node.commitIndex) {k : Nat} {y : LogEntry}
    (hy : e.node.entryAt k = some y) (hk : k ≤ e.node.commitIndex) :
    e'.node.entryAt k = some y ∨ k ≤ e'.node.snapshotIndex := by
  have v : e.node.Shows (h.log i) := r.shows
  have v' : e'.node.Shows (h'.log i) := r'.shows
  refine v.entryAt_of_shared v' (List.IsPrefix.trans ?_ (List.take_prefix e'.node.commitIndex _))
    hk hy
  have hset : c.Settled h' e.node.currentTerm ((h.log i).take e.node.commitIndex) :=
    l.settled r.commit
  have hset' : c.Settled h' e'.node.currentTerm ((h'.log i).take e'.node.commitIndex) := r'.commit
  rcases ok.settled_comparable c.quorum_inter hset hset' with hp | hp
  · exact hp
  · have hlen : ((h.log i).take e.node.commitIndex).length = e.node.commitIndex :=
      List.length_take_of_le r.commit_le
    have hlen' : ((h'.log i).take e'.node.commitIndex).length = e'.node.commitIndex :=
      List.length_take_of_le r'.commit_le
    rw [hp.eq_of_length_le (by omega)]

/-- A new process has the log of the old one. -/
theorem NodeRel.restart_entryAt {e : Engine} (ok : c.HistOk h) (cl : LeadsClean h)
    (r : NodeRel c h i e.core) (k : Nat) :
    (e.step (.act .restart)).node.entryAt k = e.node.entryAt k := by
  have hc := core_construct ok cl r
  have hlog : (e.step (.act .restart)).node.log = e.node.log := congrArg Core.log hc
  have hindex : (e.step (.act .restart)).node.snapshotIndex = e.node.snapshotIndex :=
    congrArg Core.snapshotIndex hc
  unfold RaftNode.entryAt RaftNode.lastLogIndex
  rw [hlog, hindex]

/-- No event of a node takes a committed entry out of its log, other than by
compacting it. -/
theorem WorldRel.act_keeps (hw : WorldRel c h w) (hi : i ∈ c.ids) {ev : NodeEvent}
    (hev : ev.Right c h (w.engines i)) {k : Nat} {y : LogEntry}
    (hy : (w.engines i).node.entryAt k = some y) (hk : k ≤ (w.engines i).node.commitIndex) :
    ((w.act i ev).engines i).node.entryAt k = some y ∨
      k ≤ ((w.act i ev).engines i).node.snapshotIndex := by
  simp only [World.act, Function.update_self]
  by_cases hr : ev = .act .restart
  · subst hr
    exact Or.inl (((hw.nodes i).restart_entryAt hw.ok hw.clean k).trans hy)
  · obtain ⟨h', g, ok, cl, r⟩ := (hw.nodes i).step hi hw.ok hw.clean hev
    exact (hw.nodes i).keeps_committed ok r (Relation.ReflTransGen.single ⟨i, g⟩)
      (ahead_step hr).commit hy hk

theorem WorldRel.step_keeps (hw : WorldRel c h w) {ev : WorldEvent} (hev : ev.FixedMembership)
    {k : Nat} {y : LogEntry} (hy : (w.engines i).node.entryAt k = some y)
    (hk : k ≤ (w.engines i).node.commitIndex) :
    ((w.step c ev).engines i).node.entryAt k = some y ∨
      k ≤ ((w.step c ev).engines i).node.snapshotIndex := by
  have hact : ∀ j ∈ c.ids, ∀ ev : NodeEvent, ev.Right c h (w.engines j) →
      ((w.act j ev).engines i).node.entryAt k = some y ∨
        k ≤ ((w.act j ev).engines i).node.snapshotIndex := fun j hj ev hr => by
    by_cases hij : i = j
    · subst hij
      exact hw.act_keeps hj hr hy hk
    · simp only [World.act, Function.update_of_ne hij]
      exact Or.inl hy
  cases ev with
  | act j action =>
      simp only [World.step]
      split
      · rename_i hj
        exact hact j hj (.act action) hev
      · exact Or.inl hy
  | deliver j n =>
      simp only [World.step]
      split
      · rename_i p hp
        split
        · rename_i hr
          exact hact j hr.1 (.receive p) ⟨hw.net p (List.mem_of_getElem? hp), hr.2⟩
        · exact Or.inl hy
      · exact Or.inl hy

/-- Two decided entries with one index are one entry. -/
theorem decided_unique (ok : c.HistOk h) {k : Nat} {y z : LogEntry} (hy : Decided c h k y)
    (hz : Decided c h k z) : y = z := by
  obtain ⟨t, p, hp, -, hpy⟩ := hy
  obtain ⟨u, q, hq, -, hqz⟩ := hz
  have hlt : k - 1 < p.length := (List.getElem?_eq_some_iff.mp hpy).1
  have hlt' : k - 1 < q.length := (List.getElem?_eq_some_iff.mp hqz).1
  rcases ok.settled_comparable c.quorum_inter hp hq with ⟨s, rfl⟩ | ⟨s, rfl⟩
  · rw [List.getElem?_append_left hlt, hpy] at hqz
    exact Option.some.inj hqz
  · rw [List.getElem?_append_left hlt', hqz] at hpy
    exact (Option.some.inj hpy).symm

end Safety

/-! ## The theorems -/

/-- Three nodes. -/
def trio : Cluster where
  members := [{ nodeId := "n1", raftAddress := "a1" }, { nodeId := "n2", raftAddress := "a2" },
    { nodeId := "n3", raftAddress := "a3" }]
  tuning _ := {}
  ids_nodup := by decide
  addresses_nodup := by decide

/-- The first node wins the election of term 1 with the vote of the second. -/
def trioElection : List WorldEvent :=
  [.act "n1" .start, .act "n2" .start, .act "n3" .start, .act "n1" (.electionTimeout 1),
    .deliver "n2" 0, .deliver "n1" 2, .deliver "n2" 3, .deliver "n1" 5]

/-- It replicates its no-op to the second and commits it. -/
def trioCommit : List WorldEvent :=
  [.act "n1" (.replicate "n2" 1 0), .act "n1" (.sendNext 0), .deliver "n2" 6, .deliver "n1" 7]

theorem trio_fixed : ∀ ev ∈ trioElection ++ trioCommit, ev.FixedMembership := by
  simp [trioElection, trioCommit, WorldEvent.FixedMembership, Action.FixedMembership]

/-- The no-op of term 1. -/
def firstNoop : LogEntry := { term := 1, index := 1, command := .noop, username := "" }

section Theorems

variable {c : Cluster} {evs evs' : List WorldEvent}

/-- Election Safety: the leaders of one term in one run are one node. -/
theorem election_safety (hfix : ∀ ev ∈ evs ++ evs', ev.FixedMembership) {i j : NodeId}
    (hi : (((World.init c).run c evs).engines i).node.state = .leader)
    (hj : ((((World.init c).run c evs).run c evs').engines j).node.state = .leader)
    (ht : (((World.init c).run c evs).engines i).node.currentTerm
      = ((((World.init c).run c evs).run c evs').engines j).node.currentTerm) : i = j := by
  obtain ⟨h, h', l, hw, hw'⟩ := exists_later c hfix
  exact leader_unique hw hw' l hi hj ht

theorem election_safety_trio :
    (((World.init trio).run trio trioElection).engines "n1").node.state = .leader ∧
      "n1" = "n1" :=
  ⟨by decide +kernel, election_safety (c := trio) trio_fixed (by decide +kernel)
    (by decide +kernel) (by decide +kernel)⟩

/-- Log Matching: entries with one index and term are equal, and so are the
entries of the two logs at every smaller index that both still hold. -/
theorem log_matching (hfix : ∀ ev ∈ evs, ev.FixedMembership) {i j : NodeId} {x y : LogEntry}
    (hx : x ∈ (((World.init c).run c evs).engines i).node.log)
    (hy : y ∈ (((World.init c).run c evs).engines j).node.log)
    (hindex : x.index = y.index) (hterm : x.term = y.term) :
    x = y ∧ ∀ x' ∈ (((World.init c).run c evs).engines i).node.log,
      ∀ y' ∈ (((World.init c).run c evs).engines j).node.log,
        x'.index = y'.index → x'.index ≤ x.index → x' = y' := by
  obtain ⟨h, -, hw⟩ := (init_rel c).run hfix
  obtain ⟨hpos, hx'⟩ := (hw.nodes i).mem_log hw.ok hw.clean hx
  obtain ⟨-, hy'⟩ := (hw.nodes j).mem_log hw.ok hw.clean hy
  rw [← hindex] at hy'
  have hagree := backed_agree (hw.ok.backed i) (hw.ok.backed j) hx' hy' hterm
  rw [Nat.sub_add_cancel hpos] at hagree
  -- an entry within the common part is the same in both logs
  have hsame : ∀ k < x.index, ∀ {u v : LogEntry}, (h.log i)[k]? = some u →
      (h.log j)[k]? = some v → u = v := fun k hk u v hu hv => by
    have := congrArg (·[k]?) hagree
    simp only [List.getElem?_take, if_pos hk, hu, hv] at this
    exact Option.some.inj this
  refine ⟨hsame _ (by omega) hx' hy', fun u hu v hv hidx hle => ?_⟩
  obtain ⟨hu0, hu'⟩ := (hw.nodes i).mem_log hw.ok hw.clean hu
  obtain ⟨-, hv'⟩ := (hw.nodes j).mem_log hw.ok hw.clean hv
  rw [← hidx] at hv'
  exact hsame _ (by omega) hu' hv'

/-- The write of a client after the no-op. -/
def firstWrite : LogEntry :=
  { term := 1, index := 2, command := .write "SET k v", username := "zoe", requestId := "c1:1" }

/-- The first node takes the write and replicates it to the second. -/
def trioWrite : List WorldEvent :=
  [.act "n1" (.propose "SET k v" "zoe" "c1:1" 1000), .act "n1" (.replicate "n2" 1 1),
    .act "n1" (.sendNext 0), .deliver "n2" 8, .deliver "n1" 9]

theorem trioWrite_fixed : ∀ ev ∈ trioElection ++ trioCommit ++ trioWrite, ev.FixedMembership := by
  simp [trioElection, trioCommit, trioWrite, WorldEvent.FixedMembership, Action.FixedMembership]

theorem log_trioWrite : ∀ i ∈ ["n1", "n2"],
    (((World.init trio).run trio (trioElection ++ trioCommit ++ trioWrite)).engines i).node.log =
      [firstNoop, firstWrite] := by
  decide +kernel

theorem log_matching_trio :
    let w := (World.init trio).run trio (trioElection ++ trioCommit ++ trioWrite)
    firstWrite ∈ (w.engines "n1").node.log ∧ firstWrite ∈ (w.engines "n2").node.log ∧
      ∀ x ∈ (w.engines "n1").node.log, ∀ y ∈ (w.engines "n2").node.log,
        x.index = y.index → x.index ≤ firstWrite.index → x = y := by
  have h₁ := log_trioWrite "n1" (by simp)
  have h₂ := log_trioWrite "n2" (by simp)
  refine ⟨by rw [h₁]; simp, by rw [h₂]; simp, ?_⟩
  exact (log_matching (c := trio) (i := "n1") (j := "n2") trioWrite_fixed (x := firstWrite)
    (y := firstWrite) (by rw [h₁]; simp) (by rw [h₂]; simp) rfl rfl).2

/-- State Machine Safety. A committed entry is in the log of every later
leader or covered by its snapshot; no event takes a committed entry out of a
log; what is handed to state machines at one index is one entry. -/
theorem state_machine_safety (hfix : ∀ ev ∈ evs ++ evs', ev.FixedMembership) :
    (∀ i j k y, (((World.init c).run c evs).engines i).node.entryAt k = some y →
      k ≤ (((World.init c).run c evs).engines i).node.commitIndex →
      ((((World.init c).run c evs).run c evs').engines j).node.state = .leader →
      (((World.init c).run c evs).engines i).node.currentTerm
        ≤ ((((World.init c).run c evs).run c evs').engines j).node.currentTerm →
      ((((World.init c).run c evs).run c evs').engines j).node.entryAt k = some y ∨
        k ≤ ((((World.init c).run c evs).run c evs').engines j).node.snapshotIndex) ∧
    (∀ ev : WorldEvent, ev.FixedMembership → ∀ i k y,
      (((World.init c).run c evs).engines i).node.entryAt k = some y →
      k ≤ (((World.init c).run c evs).engines i).node.commitIndex →
      ((((World.init c).run c evs).step c ev).engines i).node.entryAt k = some y ∨
        k ≤ ((((World.init c).run c evs).step c ev).engines i).node.snapshotIndex) ∧
    (∀ i j k x y, (i, k, x) ∈ ((World.init c).run c evs).applied →
      (j, k, y) ∈ ((World.init c).run c evs).applied → x = y) := by
  obtain ⟨h, h', l, hw, hw'⟩ := exists_later c hfix
  refine ⟨fun i j k y hy hk hj ht => leader_has hw hw' l hy hk hj ht,
    fun ev hev i k y hy hk => hw.step_keeps hev hy hk, fun i j k x y hx hy => ?_⟩
  exact decided_unique hw.ok (hw.applied i k x hx) (hw.applied j k y hy)

theorem state_machine_safety_trio :
    (((World.init trio).run trio (trioElection ++ trioCommit)).engines "n1").node.entryAt 1
        = some firstNoop ∨
      1 ≤ (((World.init trio).run trio (trioElection ++ trioCommit)).engines "n1").node.snapshotIndex :=
  have hfix : ∀ ev ∈ (trioElection ++ trioCommit) ++ [], ev.FixedMembership := by
    simpa using trio_fixed
  (state_machine_safety (c := trio) hfix).1 "n1" "n1" 1 firstNoop (by decide +kernel)
    (by decide +kernel) (by decide +kernel) (by decide +kernel)

end Theorems

end KvCache

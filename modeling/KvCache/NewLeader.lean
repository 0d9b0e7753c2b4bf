import KvCache.Deeds
import KvCache.Durable
import KvCache.InStep

/-!
# A new leader

A node that leads a term it did not lead before the section was elected in it,
and its log ends in the no-op of that term, at `termStartIndex`. While the node
leads, that index stays, nothing but its own entries comes into its log, and
the membership changes by its own CONFIG entries only.
-/

namespace KvCache

open StateWp Engine

/-- No storage call is going to raise. -/
def Engine.Faultless (e : Engine) : Prop := ∀ k, e.faults k = []

/-- The section may have made the node leader. -/
def NodeEvent.Elects (ev : NodeEvent) (e : Engine) : Prop :=
  e.Stands ev ∨ ∃ peer request response,
    ev.Answers e (.requestVote peer request) (.requestVote response)

/-- The log ends in the no-op of the term. -/
def Engine.Noop (e : Engine) : Prop :=
  e.termStartIndex = e.node.lastLogIndex ∧ ∃ x, e.node.entryAt e.termStartIndex = some x ∧
    x.term = e.node.currentTerm ∧ x.command = .noop

section Faultless

variable {ev : NodeEvent} {b : Bool} {e x y : Engine} {k : StorageCall}

theorem Engine.Faultless.raises (h : e.Faultless) : e.raises k = false := by
  unfold Engine.raises
  rw [h k]
  rfl

theorem Move.faultless (hm : Move ev b x y) (h : x.Faultless) : y.Faultless := fun k => by
  rcases hm.faults k with hk | hk
  · rw [hk, h k]
  · rw [hk, h k]
    rfl

theorem Move.not_raised (h : x.Faultless) (k : StorageCall) : ¬ Raised k x y := fun hr => by
  have := hr.1
  rw [h.raises] at this
  cases this

theorem Engine.Faultless.step (h : e.Faultless) : (e.step ev).Faultless :=
  fun k => (succeeds_of_nil (h k)).2

end Faultless

/-! ## Elections -/

section Elections

variable {ev : NodeEvent} {e u x y : Engine} {t : Nat}

/-- Who leads after a section led before, or was elected. -/
theorem leads_of_step (hr : ev ≠ .act .restart) (hf : e.Faultless) (hl : Leads t (e.step ev)) :
    Leads t e ∨ ev.Elects e := by
  have hrole : ∀ {x : Engine}, x.role = (x.sight.term, x.sight.state) := rfl
  refine ((deeds_step hr).keeps (P := fun y => y.faults .saveTermAndVote = [] ∧
    (Leads t y → Leads t e ∨ ev.Elects e)) ⟨hf _, Or.inl⟩ fun x y hxy hx => ?_).2 hl
  obtain ⟨hsaves, hx⟩ := hx
  have hno : ¬ x.raises .saveTermAndVote = true := by
    unfold Engine.raises
    rw [hsaves]
    decide
  have hgo : (y.sight.saves = x.sight.saves ∨ y.sight.saves = x.sight.saves.tail) →
      ((y.sight.term, y.sight.state) = (x.sight.term, x.sight.state) ∨ y.sight.state ≠ .leader ∨
        ev.Elects e) →
      y.faults .saveTermAndVote = [] ∧ (Leads t y → Leads t e ∨ ev.Elects e) := by
    intro hs hor
    refine ⟨?_, fun hy => ?_⟩
    · rcases hs with hs | hs
      · exact (hs : y.faults _ = x.faults _).trans hsaves
      · rw [show y.faults .saveTermAndVote = (x.faults .saveTermAndVote).tail from hs, hsaves]
        rfl
    · rcases hor with hsame | hother | he
      · exact hx ((hrole.trans hsame).symm.trans hy)
      · exact absurd (leads_iff.mp hy).2 hother
      · exact Or.inr he
  have hrest : ∀ s : Sight, y.sight = s → s.saves = x.sight.saves ∨ s.saves = x.sight.saves.tail →
      s.term = x.sight.term → s.state = x.sight.state →
      y.faults .saveTermAndVote = [] ∧ (Leads t y → Leads t e ∨ ev.Elects e) := by
    rintro s rfl hs ht hst
    exact hgo hs (Or.inl (Prod.ext ht hst))
  have hfollower : ∀ s : Sight, y.sight = s → s.saves = x.sight.saves ∨ s.saves = x.sight.saves.tail →
      s.state ≠ .leader →
      y.faults .saveTermAndVote = [] ∧ (Leads t y → Leads t e ∨ ev.Elects e) := by
    rintro s rfl hs hst
    exact hgo hs (Or.inr (Or.inl hst))
  cases hxy with
  | rest hs => exact hrest _ hs (Or.inl rfl) rfl rfl
  | send _ hs => exact hrest _ hs (Or.inl rfl) rfl rfl
  | power hs => exact hrest _ hs (Or.inl rfl) rfl rfl
  | bump hs => exact hrest _ hs (Or.inl rfl) rfl rfl
  | adoptTerm _ _ _ _ hs => exact hfollower _ hs (Or.inr rfl) (fun h => by cases h)
  | adoptTermFails _ _ _ hr => exact absurd hr hno
  | stepDown hs => exact hfollower _ hs (Or.inl rfl) (fun h => by cases h)
  | vote _ _ hs => exact hrest _ hs (Or.inr rfl) rfl rfl
  | voteFails _ hr => exact absurd hr hno
  | openRound _ _ _ _ hs => exact hrest _ hs (Or.inl rfl) rfl rfl
  | addGrant _ _ _ hs => exact hrest _ hs (Or.inl rfl) rfl rfl
  | standFails _ _ hr => exact absurd hr hno
  | stand _ _ _ _ _ hs => exact hfollower _ hs (Or.inr rfl) (fun h => by cases h)
  | win _ hw _ _ hs => exact hgo (Or.inr (congrArg Sight.saves hs :)) (Or.inr (Or.inr (Or.inl hw)))
  | addVote _ _ _ _ hs => exact hrest _ hs (Or.inl rfl) rfl rfl
  | office _ ha _ _ _ _ hs =>
      exact hgo (Or.inl (congrArg Sight.saves hs :)) (Or.inr (Or.inr (Or.inr ⟨_, _, _, ha⟩)))
  | work _ hs => exact hrest _ hs (Or.inl rfl) rfl rfl

/-- A leader's first entry is the no-op. -/
theorem noop_extendLog (hi : u.termStartIndex = u.node.lastLogIndex + 1)
    {x : LogEntry} (ht : x.term = u.node.currentTerm) (hc : x.command = .noop)
    (hy : y.node.log = u.node.log ++ [x]) (hs : y.node.snapshotIndex = u.node.snapshotIndex)
    (hterm : y.node.currentTerm = u.node.currentTerm) (hstart : y.termStartIndex = u.termStartIndex) :
    y.Noop := by
  have hlast : y.node.lastLogIndex = u.node.lastLogIndex + 1 := by
    unfold RaftNode.lastLogIndex
    rw [hy, hs, List.length_append]
    rfl
  refine ⟨by rw [hstart, hi, hlast], x, ?_, by rw [ht, hterm], hc⟩
  have hpos : y.termStartIndex - y.node.snapshotIndex - 1 = u.node.log.length := by
    rw [hstart, hi, hs]
    unfold RaftNode.lastLogIndex
    omega
  unfold RaftNode.entryAt
  rw [if_neg, hpos, hy, List.getElem?_concat_length]
  rw [hlast, hstart, hi, hs]
  unfold RaftNode.lastLogIndex
  omega

theorem noop_becomeLeader (e : Engine) :
    wp becomeLeader (fun _ => Engine.Noop) (fun _ => Engine.Noop) e := by
  have hfinish : ∀ u : Engine, u.Noop → u.advanceCommitIndex.restartReplicators.Noop := by
    intro u h
    obtain ⟨k, hk, -⟩ := advanceCommitIndex_eq u
    obtain ⟨d, hd, -⟩ := startReplicators_eq { u.advanceCommitIndex with replicators := Dict.empty }
    unfold Engine.restartReplicators
    rw [hd, hk]
    exact h
  have hrefresh : ∀ u : Engine, u.Noop → u.refreshConfig.Noop := by
    intro u h
    obtain ⟨d, ms, ls, hd, -⟩ := refreshConfig_eq u
    rw [hd]
    exact h
  have hlog : ∀ y : Engine, y.node.log = e.node.log ++
        [{ term := e.node.currentTerm, index := e.node.lastLogIndex + 1, command := .noop
           username := "" }] →
      y.node.snapshotIndex = e.node.snapshotIndex → y.node.currentTerm = e.node.currentTerm →
      y.termStartIndex = e.node.lastLogIndex + 1 → y.Noop :=
    fun y => noop_extendLog (u := e.takeOffice) rfl rfl rfl
  simp only [becomeLeader, appendLocal, wp_bind, wp_get, wp_modify, wp_storageCall, wp_ite, wp_pure]
  split
  · exact hlog _ rfl rfl rfl rfl
  · split
    · exact hfinish _ (hrefresh _ (hlog _ rfl rfl rfl rfl))
    · exact hfinish _ (hlog _ rfl rfl rfl rfl)

/-- What holds of a leader after a section that began in `e`: it has its no-op,
or the role of before. -/
def Engine.Enters (e y : Engine) : Prop := y.node.state = .leader → y.Noop ∨ y.role = e.role

theorem Engine.Enters.of_state (h : y.node.state ≠ .leader) : e.Enters y := fun hl => absurd hl h

theorem Engine.Enters.same (h : y.role = e.role) : e.Enters y := fun _ => Or.inr h

theorem state_callVoters (e : Engine) (call : Member → Call) :
    (e.callVoters call).node.state = e.node.state :=
  (congrArg Sight.state (sight_callVoters e call).1 :)

theorem enters_becomeCandidate (transfer : Bool) (u : Engine) :
    wp (becomeCandidate transfer) (fun _ => e.Enters) (fun _ => e.Enters) u := by
  simp only [becomeCandidate, persistTermAndVote, wp_bind, wp_get, wp_modify, wp_storageCall, wp_ite]
  split
  · exact .of_state fun h => by cases h
  · split
    · exact wp_mono (noop_becomeLeader _) (fun _ _ h _ => Or.inl h) fun _ _ h _ => Or.inl h
    · refine .of_state fun h => ?_
      have hs := state_callVoters (u.standForElection.saveVote.openBallot.resetElectionTimer)
        fun peer => .requestVote peer.nodeId
          (u.standForElection.voteRequest (u.node.currentTerm + 1) false transfer)
      cases hs.symm.trans h

theorem enters_becomeFollower (t : Nat) (hf : u.Faultless) :
    wp (becomeFollower t) (fun _ => e.Enters) (fun _ => e.Enters) u := by
  have hstep : ∀ y : Engine, e.Enters y.stepDown := fun y => by
    refine .of_state fun h => ?_
    have hs : y.stepDown.node.state = .follower := congrArg Sight.state (sight_stepDown y)
    cases hs.symm.trans h
  simp only [becomeFollower, persistTermAndVote, wp_bind, wp_get, wp_ite, wp_modify, wp_storageCall]
  split
  · split
    · rename_i hr
      cases (hf.raises (k := .saveTermAndVote)).symm.trans hr
    · exact hstep _
  · exact hstep _

theorem enters_startElection (generation : Option Nat) (hl : u.node.state ≠ .leader) :
    wp (startElection generation) (fun _ => e.Enters) (fun _ => e.Enters) u := by
  simp only [startElection, wp_bind, wp_get, wp_ite, wp_pure, wp_modify]
  split
  · exact .of_state hl
  · split
    · exact .of_state hl
    · split
      · exact enters_becomeCandidate false u
      · refine .of_state ?_
        unfold Engine.requestPreVotes
        rw [state_callVoters]
        exact hl

theorem enters_elects (hf : e.Faultless) (he : ev.Elects e) : e.Enters (e.step ev) := by
  refine (wp_after (P := fun y : Engine => e.Enters y)).mp ?_
  rcases he with (⟨⟨env, rfl, hc, hep⟩, -⟩ | ⟨hev, hc, hrun, -⟩ | ⟨⟨rfl, -⟩ | ⟨rfl, -⟩, hl, -⟩) |
    ⟨peer, request, response, env, rfl, hc, hep⟩
  · -- the last yes of a pre-vote round
    simp only [NodeEvent.body, KvCache.receive, wp_bind, wp_get, wp_ite, wp_pure]
    rw [if_pos hep.symm]
    unfold handleReply
    rw [hc]
    simp only [preVoteReply, wp_bind, wp_get, wp_ite, wp_pure, wp_modify]
    split
    · exact enters_becomeFollower _ hf
    · split
      · exact .same rfl
      · split
        · exact enters_becomeCandidate false _
        · exact .same rfl
  · -- an order of the leader
    obtain rfl := hev
    simp only [NodeEvent.body, KvCache.receive, wp_bind, wp_get, wp_ite, wp_pure]
    rw [if_pos hrun]
    unfold handleRpc
    rw [hc]
    simp only [handleTimeoutNow, wp_bind, wp_get, wp_ite, wp_pure, wp_modify]
    split
    · exact wp_mono (enters_becomeCandidate true e) (fun _ _ h => h) fun _ _ h => h
    · exact .same rfl
  · simp only [NodeEvent.body, Action.body, KvCache.start, wp_bind, wp_get, wp_ite, wp_pure, wp_modify]
    split
    · split
      · exact enters_startElection none hl
      · exact .same rfl
    · exact .same rfl
  · exact enters_startElection _ hl
  · -- the last vote
    simp only [NodeEvent.body, KvCache.receive, wp_bind, wp_get, wp_ite, wp_pure]
    rw [if_pos hep.symm]
    unfold handleReply
    rw [hc]
    simp only [requestVoteReply, wp_bind, wp_get, wp_ite, wp_pure, wp_modify]
    split
    · exact enters_becomeFollower _ hf
    · split
      · exact .same rfl
      · split
        · exact wp_mono (noop_becomeLeader _) (fun _ _ h _ => Or.inl h) fun _ _ h _ => Or.inl h
        · exact .same rfl

/-- Who leads a term after a section led it before, or has just appended the
no-op of the term. -/
theorem noop_of_leads (hr : ev ≠ .act .restart) (hf : e.Faultless) (hl : Leads t (e.step ev)) :
    Leads t e ∨ (e.step ev).Noop := by
  rcases leads_of_step hr hf hl with h | he
  · exact Or.inl h
  · rcases enters_elects hf he (leads_iff.mp hl).2 with h | h
    · exact Or.inr h
    · exact Or.inl (h.symm.trans hl)

end Elections

/-! ## In office -/

/-- What a log says above the other's snapshot, the other says as well. -/
structure RaftNode.Keeps (n m : RaftNode) : Prop where
  snapshot_le : n.snapshotIndex ≤ m.snapshotIndex
  entry : ∀ k x, m.snapshotIndex < k → n.entryAt k = some x → m.entryAt k = some x

section Keeps

variable {n m l : RaftNode}

theorem entryAt_eq_some {k : Nat} {x : LogEntry} :
    n.entryAt k = some x ↔ n.snapshotIndex < k ∧ n.log[k - n.snapshotIndex - 1]? = some x := by
  unfold RaftNode.entryAt RaftNode.lastLogIndex
  constructor
  · intro h
    split at h
    · cases h
    · exact ⟨by omega, h⟩
  · rintro ⟨hk, hx⟩
    have := (List.getElem?_eq_some_iff.mp hx).1
    rw [if_neg (by omega)]
    exact hx

theorem RaftNode.Keeps.refl (n : RaftNode) : n.Keeps n := ⟨Nat.le_refl _, fun _ _ _ h => h⟩

theorem RaftNode.Keeps.trans (h : n.Keeps m) (h' : m.Keeps l) : n.Keeps l :=
  ⟨h.snapshot_le.trans h'.snapshot_le,
    fun k x hk hx => h'.entry k x hk (h.entry k x (Nat.lt_of_le_of_lt h'.snapshot_le hk) hx)⟩

theorem keeps_append {es : List LogEntry} (hl : m.log = n.log ++ es)
    (hs : m.snapshotIndex = n.snapshotIndex) : n.Keeps m := by
  refine ⟨Nat.le_of_eq hs.symm, fun k x _ hx => ?_⟩
  obtain ⟨hk, hx⟩ := entryAt_eq_some.mp hx
  refine entryAt_eq_some.mpr ⟨by rw [hs]; exact hk, ?_⟩
  rw [hs, hl, List.getElem?_append_left (List.getElem?_eq_some_iff.mp hx).1]
  exact hx

theorem keeps_same (hl : m.log = n.log) (hs : m.snapshotIndex = n.snapshotIndex) : n.Keeps m :=
  keeps_append (show m.log = n.log ++ [] by rw [hl, List.append_nil]) hs

theorem keeps_drop {s : Nat} (hl : m.log = n.log.drop (s - n.snapshotIndex))
    (hs : m.snapshotIndex = s) (hle : n.snapshotIndex ≤ s) : n.Keeps m := by
  refine ⟨hs ▸ hle, fun k x hk hx => ?_⟩
  rw [hs] at hk
  obtain ⟨_, hx⟩ := entryAt_eq_some.mp hx
  refine entryAt_eq_some.mpr ⟨by rw [hs]; exact hk, ?_⟩
  rw [hs, hl, List.getElem?_drop, ← hx]
  congr 1
  omega

end Keeps

/-- Office and membership are those of `e`, the newest CONFIG entry has been
committed at most, and no other CONFIG entry has come into the log. -/
structure Engine.KeepsSeat (e y : Engine) : Prop where
  termStartIndex : y.termStartIndex = e.termStartIndex
  members : y.members = e.members
  configIndex : y.configIndex ≤ max e.configIndex y.node.commitIndex
  log : ∀ x ∈ y.node.log, (parseConfig x.command).isSome → x ∈ e.node.log
  keeps : e.node.Keeps y.node

section InOffice

variable {ev : NodeEvent} {e x y : Engine} {b : Bool} {t : Nat}

theorem Engine.KeepsSeat.refl (e : Engine) : e.KeepsSeat e :=
  ⟨rfl, rfl, Nat.le_max_left _ _, fun _ h _ => h, .refl _⟩

theorem Engine.KeepsSeat.then (h : e.KeepsSeat x) (hs : y.termStartIndex = x.termStartIndex)
    (hm : y.members = x.members) (hc : y.configIndex = x.configIndex)
    (hk : x.node.commitIndex ≤ y.node.commitIndex)
    (hl : ∀ z ∈ y.node.log, (parseConfig z.command).isSome → z ∈ x.node.log)
    (hn : x.node.Keeps y.node) : e.KeepsSeat y := by
  refine ⟨hs.trans h.termStartIndex, hm.trans h.members, ?_, fun z hz hp => h.log z (hl z hz hp) hp,
    h.keeps.trans hn⟩
  have := h.configIndex
  omega

/-- The log is the same. -/
theorem Engine.KeepsSeat.of_eq (h : e.KeepsSeat x) (hs : y.termStartIndex = x.termStartIndex)
    (hm : y.members = x.members) (hc : y.configIndex = x.configIndex)
    (hk : x.node.commitIndex ≤ y.node.commitIndex) (hl : y.node.log = x.node.log)
    (hi : y.node.snapshotIndex = x.node.snapshotIndex) : e.KeepsSeat y :=
  h.then hs hm hc hk (fun _ hz _ => hl ▸ hz) (keeps_same hl hi)

/-- An entry that is no CONFIG entry. -/
theorem appended_plain (u : Engine) {entry : LogEntry} (hp : parseConfig entry.command = none) :
    u.appended [entry] = (u.extendLog [entry]).stored .append (·.append [entry]) := by
  unfold Engine.appended
  dsimp only
  rw [if_neg]
  simp [hp]

theorem Engine.KeepsSeat.appended (h : e.KeepsSeat x) {entry : LogEntry}
    (hp : parseConfig entry.command = none) (hl : y.node.log = x.node.log ++ [entry])
    (hs : y.termStartIndex = x.termStartIndex) (hm : y.members = x.members)
    (hc : y.configIndex = x.configIndex) (hk : x.node.commitIndex ≤ y.node.commitIndex)
    (hi : y.node.snapshotIndex = x.node.snapshotIndex) : e.KeepsSeat y := by
  refine h.then hs hm hc hk (fun z hz hconf => ?_) (keeps_append hl hi)
  rw [hl] at hz
  rcases List.mem_append.mp hz with hz | hz
  · exact hz
  · rw [List.mem_singleton.mp hz, hp] at hconf
    cases hconf

/-- A move of a leader, unless it adopts a snapshot or a new membership. -/
theorem Move.keepsSeat (hm : Move ev b x y) (hw : ev ≠ .act .wakeChange)
    (hi : ev ≠ .act (.finishInstall true)) (hf : x.Faultless) (hk : Kept x.ledger)
    (hx : Leads t x) (h : e.KeepsSeat x) : e.KeepsSeat y := by
  have hno : ∀ {k : StorageCall}, ¬ x.raises k = true := fun {k} hr => by
    cases (hf.raises (k := k)).symm.trans hr
  have hcommit := hm.onward.1
  cases hm with
  | idle hg =>
      exact h.of_eq (congrArg (·.termStartIndex) hg :) (congrArg (·.members) hg :)
        (congrArg (·.configIndex) hg :) hcommit (congrArg (·.node.log) hg :)
        (congrArg (·.node.snapshotIndex) hg :)
  | adoptTerm =>
      obtain ⟨l, ls, t, hd⟩ := stepDown_eq (x.enterTerm _).saveVote
      rw [hd]
      exact h.of_eq rfl rfl rfl (Nat.le_refl _) rfl rfl
  | stepDown =>
      obtain ⟨l, ls, t, hd⟩ := stepDown_eq x
      rw [hd]
      exact h.of_eq rfl rfl rfl (Nat.le_refl _) rfl rfl
  | noop =>
      rw [appended_plain x rfl]
      exact h.appended rfl rfl rfl rfl rfl (Nat.le_refl _) rfl
  | noopFails _ _ hr => exact absurd hr hno
  | propose timeout ho =>
      cases ho with
      | write he =>
          obtain ⟨k, hk, -⟩ := advanceCommitIndex_eq ((x.appended [x.newEntry (.write _) _ _]).addWaiter
            (x.newEntry (.write _) _ _).index)
          unfold Engine.proposed at hcommit ⊢
          rw [hk, appended_plain x rfl] at hcommit ⊢
          exact h.appended rfl rfl rfl rfl rfl hcommit rfl
      | config he => exact absurd he hw
  | proposeFails _ _ _ _ hr => exact absurd hr hno
  | receive ha hl => exact absurd hx (ha.not_leads hl.state)
  | receiveFails _ _ hr => exact absurd hr hno
  | truncate ha => exact absurd hx (ha.not_leads rfl)
  | truncateFails _ _ _ _ _ hr => exact absurd hr hno
  | advanceCommit =>
      obtain ⟨k, hk, -⟩ := advanceCommitIndex_eq x
      rw [hk] at hcommit ⊢
      exact h.of_eq rfl rfl rfl hcommit rfl rfl
  | followCommit =>
      obtain ⟨k, hk, -⟩ := followCommit_eq x _ _
      rw [hk] at hcommit ⊢
      exact h.of_eq rfl rfl rfl hcommit rfl rfl
  | startReplicator =>
      obtain ⟨d, hd, -⟩ := startReplicator_eq x _
      rw [hd]
      exact h.of_eq rfl rfl rfl (Nat.le_refl _) rfl rfl
  | install ha => exact absurd ha hi
  | installFails ha => exact absurd ha hi
  | compact =>
      have hlog := log_folded x hk.snapshot_le
      refine h.then rfl rfl rfl hcommit (fun z hz _ => ?_) (keeps_drop hlog rfl hk.snapshot_le)
      exact List.drop_subset _ _ (hlog ▸ hz : z ∈ x.node.log.drop _)
  | compactFails _ _ hr => exact absurd hr hno
  | _ => exact h.of_eq rfl rfl rfl (Nat.le_refl _) rfl rfl

/-- A snapshot that finishes installing on a leader is one of its own log. -/
def Engine.InstallsOwn (e : Engine) (ev : NodeEvent) : Prop :=
  ∀ y, ev = .act (.finishInstall true) → e.applyLock = .installing y → e.node.state = .leader →
    ¬ e.Mismatch y.request ∧
      e.node.configAt y.request.lastIncludedIndex = some (y.request.config.getD [])

/-- What is left of a log has the same newest CONFIG entry, or none. -/
theorem newest_drop {α β : Type} (f : α → Option β) (l : List α) (k : Nat) :
    (l.drop k).reverse.findSome? f = l.reverse.findSome? f ∨
      (l.drop k).reverse.findSome? f = none := by
  have hsplit : l.reverse = (l.drop k).reverse ++ (l.take k).reverse := by
    rw [← List.reverse_append, List.take_append_drop]
  rw [hsplit, List.findSome?_append]
  cases (l.drop k).reverse.findSome? f with
  | none => exact Or.inr rfl
  | some v => exact Or.inl rfl

/-- Folding a log leaves the newest CONFIG entry where it was, or takes it into
the snapshot. -/
theorem latestConfig_drop {n m : RaftNode} {k : Nat} (hlog : m.log = n.log.drop k) :
    m.latestConfig.1 = n.latestConfig.1 ∨ m.latestConfig.1 = m.snapshotIndex := by
  unfold RaftNode.latestConfig
  rw [hlog]
  rcases newest_drop (fun e : LogEntry => (parseConfig e.command).map (e.index, ·)) n.log k with h | h
  · rw [h]
    cases hf : n.log.reverse.findSome? fun e => (parseConfig e.command).map (e.index, ·) with
    | none => exact Or.inr rfl
    | some v => exact Or.inl rfl
  · rw [h]
    exact Or.inr rfl

/-- `_config_index` is the index of the newest CONFIG entry, unless that is
committed. -/
def Engine.Noted (e : Engine) : Prop := e.node.latestConfig.1 ≤ max e.configIndex e.node.commitIndex

theorem noted_refreshConfig (u : Engine) : u.refreshConfig.Noted := by
  obtain ⟨d, ms, ls, hd, -⟩ := refreshConfig_eq u
  rw [hd]
  exact Nat.le_max_left _ _

theorem Engine.Noted.of_eq (h : x.Noted) (hl : y.node.log = x.node.log)
    (hs : y.node.snapshotIndex = x.node.snapshotIndex) (hc : y.configIndex = x.configIndex)
    (hk : x.node.commitIndex ≤ y.node.commitIndex) : y.Noted := by
  have hlatest : y.node.latestConfig.1 = x.node.latestConfig.1 := by
    unfold RaftNode.latestConfig
    rw [hl, hs]
    split
    · rfl
    · rfl
  unfold Engine.Noted at h ⊢
  rw [hlatest, hc]
  omega

theorem latestConfig_append {n m : RaftNode} {es : List LogEntry} (hl : m.log = n.log ++ es)
    (hs : m.snapshotIndex = n.snapshotIndex)
    (hno : ¬ (es.any fun x => (parseConfig x.command).isSome) = true) :
    m.latestConfig.1 = n.latestConfig.1 := by
  have hnone : es.reverse.findSome? (fun e => (parseConfig e.command).map (e.index, ·)) = none := by
    rw [List.findSome?_eq_none_iff]
    intro z hz
    have hz' := fun h => hno (List.any_eq_true.mpr ⟨z, List.mem_reverse.mp hz, h⟩)
    rw [Option.not_isSome_iff_eq_none.mp hz']
    rfl
  unfold RaftNode.latestConfig
  rw [hl, hs, List.reverse_append, List.findSome?_append, hnone, Option.none_or]
  split
  · rfl
  · rfl

theorem Engine.Noted.appended (h : x.Noted) (es : List LogEntry) : (x.appended es).Noted := by
  unfold Engine.appended
  dsimp only
  split
  · exact noted_refreshConfig _
  · rename_i hno
    have hlatest := latestConfig_append (n := x.node)
      (m := ((x.extendLog es).stored .append (·.append es)).node) rfl rfl hno
    unfold Engine.Noted at h ⊢
    rw [hlatest]
    exact h

theorem Engine.Noted.advance (h : x.Noted) : x.advanceCommitIndex.Noted := by
  obtain ⟨k, hk, hor⟩ := advanceCommitIndex_eq x
  rw [hk]
  refine h.of_eq rfl rfl rfl ?_
  rcases hor with rfl | ⟨-, hscan⟩
  · exact Nat.le_refl _
  · exact (scanCommit_spec hscan).1.le

theorem noted_installed (u : Engine) (req : InstallSnapshotRequest) : (u.installed req).Noted := by
  unfold Engine.installed
  exact noted_refreshConfig _

theorem noted_replyInstall {u : Engine} (h : u.Noted) (install : Install) :
    (u.replyInstall install).Noted := h

theorem Move.noted (hm : Move ev b x y) (hf : x.Faultless) (hk : Kept x.ledger) (h : x.Noted) :
    y.Noted := by
  have hno : ∀ {k : StorageCall}, ¬ x.raises k = true := fun {k} hr => by
    cases (hf.raises (k := k)).symm.trans hr
  have hsame : Nat.le x.node.commitIndex x.node.commitIndex := Nat.le_refl _
  cases hm with
  | idle hg =>
      exact h.of_eq (congrArg (·.node.log) hg :) (congrArg (·.node.snapshotIndex) hg :)
        (congrArg (·.configIndex) hg :) (Nat.le_of_eq (congrArg (·.node.commitIndex) hg :).symm)
  | adoptTerm =>
      obtain ⟨l, ls, t, hd⟩ := stepDown_eq (x.enterTerm _).saveVote
      rw [hd]
      exact h.of_eq rfl rfl rfl hsame
  | stepDown =>
      obtain ⟨l, ls, t, hd⟩ := stepDown_eq x
      rw [hd]
      exact h.of_eq rfl rfl rfl hsame
  | noop => exact h.appended _
  | noopFails _ _ hr => exact absurd hr hno
  | propose timeout => exact Engine.Noted.advance (x := (x.appended [_]).addWaiter _) (h.appended _)
  | proposeFails _ _ _ _ hr => exact absurd hr hno
  | receive => exact h.appended _
  | receiveFails _ _ hr => exact absurd hr hno
  | truncate => exact noted_refreshConfig _
  | truncateFails _ _ _ _ _ hr => exact absurd hr hno
  | advanceCommit => exact h.advance
  | followCommit =>
      obtain ⟨k, hk, hle, -⟩ := followCommit_eq x _ _
      rw [hk]
      exact h.of_eq rfl rfl rfl hle
  | startReplicator =>
      obtain ⟨d, hd, -⟩ := startReplicator_eq x _
      rw [hd]
      exact h.of_eq rfl rfl rfl hsame
  | install => exact noted_replyInstall (noted_installed _ _) _
  | installFails ha hi hor =>
      rcases hor with ⟨-, hr, -⟩ | ⟨-, hr⟩
      · exact absurd hr hno
      · exact absurd hr hno
  | compact =>
      have hlog := log_folded x hk.snapshot_le
      rcases latestConfig_drop (n := x.node) (m := x.compacted.node) hlog with hd | hd
      · unfold Engine.Noted at h ⊢
        rw [hd]
        exact h
      · unfold Engine.Noted
        rw [hd]
        exact (hk.applied_le : x.node.lastApplied ≤ x.node.commitIndex).trans (Nat.le_max_right _ _)
  | compactFails _ _ hr => exact absurd hr hno
  | _ => exact h.of_eq rfl rfl rfl hsame

theorem noted_construct (hf : e.Faultless) : (after construct e).Noted := by
  refine (wp_after (P := Engine.Noted)).mp ?_
  have hmark : ∀ u : Engine, u.refreshConfig.markUp.Noted := noted_refreshConfig
  simp only [construct, restorePersistentState, wp_bind, wp_get, wp_ite, wp_modify, wp_storageCall]
  split
  · split
    · rename_i hr
      have hno : e.raises .saveSnapshot = true := hr
      cases hf.raises.symm.trans hno
    · exact hmark _
  · exact hmark _

theorem noted_step (hev : ev.Consecutive) (hf : e.Faultless) (hk : Kept e.ledger) (h : e.Noted) :
    (e.step ev).Noted := by
  by_cases hr : ev = .act .restart
  · subst hr
    exact noted_construct hf
  · refine ((section_step hr).keeps (P := fun y => y.Faultless ∧ Kept y.ledger ∧ y.Noted) ⟨hf, hk, h⟩
      (fun b u v hm hu => ?_) fun u _ _ hu => hu).2.2
    obtain ⟨hf, hk, h⟩ := hu
    exact ⟨hm.faultless hf, hm.kept hev (fun k _ => Move.not_raised hf k) hk, hm.noted hf hk h⟩

/-- The same newest membership is not adopted again. -/
theorem refreshConfig_same {u : Engine} (h : u.Current u.members) :
    u.refreshConfig = { u with configIndex := u.node.latestConfig.1 } := by
  unfold Engine.Current at h
  unfold Engine.refreshConfig
  dsimp only
  rw [if_pos h]

/-- An engine whose log has been folded at `s` adopts the same membership. -/
theorem seat_refreshConfig {u : Engine} {s t : Nat} (hk : Kept e.ledger) (hn : e.Noted)
    (hlog : u.node.log = e.node.log.drop (s - e.node.snapshotIndex))
    (hs : u.node.snapshotIndex = s) (hc : u.node.snapshotConfig = e.node.configAt s)
    (hle : e.node.snapshotIndex ≤ s) (hcommit : max e.node.commitIndex s ≤ u.node.commitIndex)
    (hstart : u.termStartIndex = e.termStartIndex) (hmembers : u.members = e.members) :
    e.KeepsSeat u.refreshConfig := by
  have hlatest : u.node.latestConfig
      = (e.node.folded s t (e.node.configAt s)).latestConfig := by
    unfold RaftNode.latestConfig RaftNode.folded
    rw [hlog, hs, hc]
  have hcur : u.Current u.members := by
    have hold : e.Current e.members := hk.members
    have hidx : e.node.Indexed := hk.indexed
    unfold Engine.Current at hold ⊢
    rw [hlatest, RaftNode.latestConfig_folded hidx, hmembers]
    exact hold
  rw [refreshConfig_same hcur]
  refine ⟨hstart, hmembers, ?_, fun x hx _ => ?_, keeps_drop hlog hs hle⟩
  · -- the newest CONFIG entry is the one of before, or in the snapshot
    change u.node.latestConfig.1 ≤ max e.configIndex u.node.commitIndex
    unfold Engine.Noted at hn
    rcases latestConfig_drop (n := e.node) (m := u.node) hlog with h | h
    · omega
    · omega
  · exact List.drop_subset _ _ ((hlog ▸ hx : x ∈ e.node.log.drop _))

/-- A leader that adopts a snapshot of its own log keeps its seat. -/
theorem seat_install (hk : Kept e.ledger) (hf : e.Faultless) (hn : e.Noted)
    (hl : e.node.state = .leader) (hown : e.InstallsOwn (.act (.finishInstall true))) :
    e.KeepsSeat (e.step (.act (.finishInstall true))) := by
  refine (wp_after (P := e.KeepsSeat)).mp ?_
  simp only [NodeEvent.body, Action.body, KvCache.finishInstall, wp_bind, wp_get]
  split
  · rename_i y hy
    obtain ⟨hmatch, hconfig⟩ := hown y rfl hy hl
    have hterm : e.node.termAt y.request.lastIncludedIndex = some y.request.lastIncludedTerm :=
      Decidable.not_not.mp hmatch
    have hlog := e.node.compactThrough_log (some (y.request.config.getD []))
      (RaftNode.le_of_termAt hterm).1 hterm
    simp only [wp_bind, wp_ite, wp_modify, installSnapshot, wp_get, wp_storageCall, if_true]
    rw [if_neg (show ¬ (e.setLock .free).node.termAt _ ≠ some _ from hmatch)]
    split
    · rename_i hr
      have hno : e.raises .saveSnapshot = true := hr
      cases hf.raises.symm.trans hno
    · -- the node after the snapshot, as a folded log
      generalize hu : (((e.setLock .free).adoptSnapshot y.request).useFault .saveSnapshot).store _ = u
      have hseat : e.KeepsSeat u.refreshConfig := by
        refine seat_refreshConfig (s := y.request.lastIncludedIndex)
          (t := y.request.lastIncludedTerm) hk hn ?_ ?_ ?_ (RaftNode.le_of_termAt hterm).1 ?_ ?_ ?_
        · rw [← hu]
          exact hlog
        · rw [← hu]
          rfl
        · rw [← hu, hconfig]
          rfl
        · rw [← hu]
          exact Nat.le_refl _
        · rw [← hu]
          rfl
        · rw [← hu]
          rfl
      exact ⟨hseat.termStartIndex, hseat.members, hseat.configIndex, hseat.log, hseat.keeps⟩
  · exact .refl e

/-- What a section leaves of a leader, apart from its own CONFIG entries. -/
theorem seat_step (hr : ev ≠ .act .restart) (hw : ev ≠ .act .wakeChange) (hev : ev.Consecutive)
    (hf : e.Faultless) (hk : Kept e.ledger) (hn : e.Noted) (hown : e.InstallsOwn ev)
    (hl : Leads t e) :
    Lost t (e.step ev) ∨ Leads t (e.step ev) ∧ e.KeepsSeat (e.step ev) := by
  by_cases hi : ev = .act (.finishInstall true)
  · subst hi
    have hseat := seat_install hk hf hn (leads_iff.mp hl).2 hown
    rcases (section_step hr).office (P := fun _ => True) (Or.inr ⟨hl, trivial⟩)
      (fun _ _ _ _ _ _ _ => trivial) with h | h
    · exact Or.inl h
    · exact Or.inr ⟨h.1, hseat⟩
  · refine ((section_step hr).office (P := fun y => y.Faultless ∧ Kept y.ledger ∧ e.KeepsSeat y)
      (Or.inr ⟨hl, hf, hk, .refl e⟩) fun _ _ _ hm hu _ h => ?_).imp id fun h => ⟨h.1, h.2.2.2⟩
    exact ⟨hm.faultless h.1, hm.kept hev (fun k _ => Move.not_raised h.1 k) h.2.1,
      hm.keepsSeat hw hi h.1 h.2.1 hu h.2.2⟩

end InOffice

end KvCache

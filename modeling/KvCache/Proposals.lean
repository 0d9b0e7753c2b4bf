import KvCache.InStep

/-!
# An acknowledged proposal

`propose` finds its result in a table under the log index of its entry. After
a change of leaders the index may belong to another entry, applied while the
proposal still waits; the table holds the term for this. Two entries of one
index and one term are one entry (`Identified`), so what comes back with the
right term is the result of the proposal's own entry.
-/

namespace KvCache

open StateWp Engine

/-! ## What a node did -/

/-- The node went from `start` to `e`, and `past` holds every section it ran,
with the state before. What it sends may be taken off the outbox any time. -/
inductive Engine.Course (start : Engine) : List (Engine × NodeEvent) → Engine → Prop
  | start : Course start [] start
  | step {past : List (Engine × NodeEvent)} {e : Engine} (h : Course start past e) (ev : NodeEvent) :
      Course start (past ++ [(e, ev)]) (e.step ev)
  | flush {past : List (Engine × NodeEvent)} {e : Engine} (h : Course start past e) :
      Course start past { e with outbox := [] }

section Past

variable (past : List (Engine × NodeEvent))

/-- The node's log never holds two entries of one index and one term. -/
def Identified : Prop :=
  ∀ s ∈ past, ∀ s' ∈ past, ∀ k x y, s.1.node.entryAt k = some x →
    (s'.1.step s'.2).node.entryAt k = some y → x.term = y.term → x = y

/-- A section left the entry in the log, at the index it names. -/
def Logged (x : LogEntry) : Prop :=
  ∃ s ∈ past, (s.1.step s.2).node.entryAt x.index = some x

/-- The entry was in the log and committed. -/
def CommittedIn (k : Nat) (x : LogEntry) : Prop :=
  ∃ s ∈ past, s.1.node.entryAt k = some x ∧ k ≤ s.1.node.commitIndex

/-- The applier was done with the entry, and `result` is what it got. -/
def AppliedIn (k : Nat) (x : LogEntry) (result : Result) : Prop :=
  ∃ e r, (e, .act (.finishApply r)) ∈ past ∧ e.applyLock = .applying k x ∧
    result = x.command.applied r

/-- An entry of this term at this index was committed and applied with this
result; the commit index is now `c`. -/
def Concluded (c k t : Nat) (result : Result) : Prop :=
  ∃ x : LogEntry, x.term = t ∧ CommittedIn past k x ∧ AppliedIn past k x result ∧ k ≤ c

end Past

section Runs

variable {past : List (Engine × NodeEvent)} {s : Engine × NodeEvent} {x : LogEntry}
  {k t c c' : Nat} {result : Result}

theorem Logged.concat (h : Logged past x) : Logged (past ++ [s]) x := by
  obtain ⟨s', hs, hx⟩ := h
  exact ⟨s', List.mem_append_left _ hs, hx⟩

theorem CommittedIn.concat (h : CommittedIn past k x) : CommittedIn (past ++ [s]) k x := by
  obtain ⟨s', hs, hx⟩ := h
  exact ⟨s', List.mem_append_left _ hs, hx⟩

theorem AppliedIn.concat (h : AppliedIn past k x result) : AppliedIn (past ++ [s]) k x result := by
  obtain ⟨e, r, hs, hx⟩ := h
  exact ⟨e, r, List.mem_append_left _ hs, hx⟩

theorem Concluded.concat (h : Concluded past c k t result) :
    Concluded (past ++ [s]) c k t result := by
  obtain ⟨x, ht, hc, ha, hle⟩ := h
  exact ⟨x, ht, hc.concat, ha.concat, hle⟩

theorem Concluded.mono (h : Concluded past c k t result) (hle : c ≤ c') :
    Concluded past c' k t result := by
  obtain ⟨x, ht, hc, ha, hk⟩ := h
  exact ⟨x, ht, hc, ha, hk.trans hle⟩

end Runs

/-! ## Proposals and the table of results -/

/-- The proposals under way and the results for them. -/
def Engine.mail (e : Engine) : Dict Nat (Option (Nat × Result)) × List Proposal :=
  (e.waiters, e.proposals)

/-- What is in the table, and what a proposal returned, has come about. -/
structure Settles (past : List (Engine × NodeEvent)) (e : Engine) : Prop where
  waiters : ∀ k t result, e.waiters.get? k = some (some (t, result)) →
    Concluded past e.node.commitIndex k t result
  ids : ∀ p ∈ e.proposals, p.id < e.nextCall
  unique : ∀ p ∈ e.proposals, ∀ q ∈ e.proposals, p.id = q.id → p.entry = q.entry
  logged : ∀ p ∈ e.proposals, Logged past p.entry
  returned : ∀ p ∈ e.proposals, ∀ result, p.phase = .returned result →
    Concluded past e.node.commitIndex p.entry.index p.entry.term result

/-- Who applies an entry found it committed. -/
def Applying (past : List (Engine × NodeEvent)) (e : Engine) : Prop :=
  ∀ k x, e.applyLock = .applying k x → CommittedIn past k x ∧ k ≤ e.node.commitIndex

section Mail

variable {e e' x y : Engine} {past : List (Engine × NodeEvent)} {s : Engine × NodeEvent}
  {ev : NodeEvent} {b : Bool}

theorem Settles.concat (h : Settles past e) : Settles (past ++ [s]) e where
  waiters k t result hk := (h.waiters k t result hk).concat
  ids := h.ids
  unique := h.unique
  logged p hp := (h.logged p hp).concat
  returned p hp result hr := (h.returned p hp result hr).concat

theorem Applying.concat (h : Applying past e) : Applying (past ++ [s]) e :=
  fun k x hl => ⟨(h k x hl).1.concat, (h k x hl).2⟩

theorem Settles.of_mail (h : Settles past e) (hm : e'.mail = e.mail)
    (hn : e.nextCall ≤ e'.nextCall) (hc : e.node.commitIndex ≤ e'.node.commitIndex) :
    Settles past e' := by
  have hw : e'.waiters = e.waiters := congrArg (·.1) hm
  have hp : e'.proposals = e.proposals := congrArg (·.2) hm
  refine ⟨fun k t result hk => ?_, fun p hin => ?_, fun p hin q hq => ?_, fun p hin => ?_,
    fun p hin result hr => ?_⟩
  · exact (h.waiters k t result (hw ▸ hk)).mono hc
  · exact Nat.lt_of_lt_of_le (h.ids p (hp ▸ hin)) hn
  · exact h.unique p (hp ▸ hin) q (hp ▸ hq)
  · exact h.logged p (hp ▸ hin)
  · exact (h.returned p (hp ▸ hin) result hr).mono hc

/-- A result comes from the table. -/
theorem Settles.outcome (h : Settles past e) {p : Proposal} {result : Result}
    (hr : e.proposalOutcome p = .returned result) :
    Concluded past e.node.commitIndex p.entry.index p.entry.term result := by
  unfold Engine.proposalOutcome at hr
  split at hr
  · rename_i t r hget
    split at hr
    · cases hr
    · rename_i ht
      cases hr
      rw [Decidable.not_not] at ht
      subst ht
      refine h.waiters _ _ _ ?_
      cases hw : e.waiters.get? p.entry.index with
      | none =>
          rw [hw] at hget
          cases hget
      | some v =>
          rw [hw] at hget
          exact congrArg some hget
  · split at hr
    · cases hr
    · split at hr
      · cases hr
      · cases hr

theorem mem_endProposal {p q : Proposal} {phase : ProposalPhase}
    (hq : q ∈ (e.endProposal p phase).proposals) :
    q ∈ e.proposals ∨ ∃ r ∈ e.proposals, r.id = p.id ∧ q = { r with phase := phase } := by
  obtain ⟨r, hr, heq⟩ := List.mem_map.mp hq
  split at heq
  · rename_i hid
    exact Or.inr ⟨r, hr, hid, heq.symm⟩
  · exact Or.inl (heq ▸ hr)

theorem Settles.endProposal (h : Settles past e) {p : Proposal} (hp : p ∈ e.proposals) :
    Settles past (e.endProposal p (e.proposalOutcome p)) := by
  have hsame : ∀ q ∈ (e.endProposal p (e.proposalOutcome p)).proposals,
      ∃ r ∈ e.proposals, r.id = q.id ∧ r.entry = q.entry := fun q hq => by
    rcases mem_endProposal hq with hq | ⟨r, hr, -, rfl⟩
    · exact ⟨q, hq, rfl, rfl⟩
    · exact ⟨r, hr, rfl, rfl⟩
  refine ⟨fun k t result hk => ?_, fun q hq => ?_, fun q hq q' hq' hid => ?_, fun q hq => ?_,
    fun q hq result hr => ?_⟩
  · unfold Engine.endProposal at hk
    dsimp only at hk
    rw [Dict.get?_erase] at hk
    split at hk
    · cases hk
    · exact h.waiters k t result hk
  · obtain ⟨r, hr, hid, -⟩ := hsame q hq
    rw [← hid]
    exact h.ids r hr
  · obtain ⟨r, hr, hid₁, hent⟩ := hsame q hq
    obtain ⟨r', hr', hid₂, hent'⟩ := hsame q' hq'
    rw [← hent, ← hent']
    exact h.unique r hr r' hr' (hid₁.trans (hid.trans hid₂.symm))
  · obtain ⟨r, hr, -, hent⟩ := hsame q hq
    rw [← hent]
    exact h.logged r hr
  · rcases mem_endProposal hq with hq | ⟨r, hr', hid, rfl⟩
    · exact h.returned q hq result hr
    · have hent := h.unique r hr' p hp hid
      dsimp only at hr ⊢
      rw [hent]
      exact h.outcome hr

end Mail

/-! ## One step -/

section Steps

variable {e e' x y : Engine} {past : List (Engine × NodeEvent)} {ev : NodeEvent} {b : Bool}

/-- Proposals are made, and entries noted as applied, by these sections. -/
def NodeEvent.Posts (ev : NodeEvent) : Prop :=
  (∃ text username requestId timeout, ev = .act (.propose text username requestId timeout)) ∨
    ev = .act .wakeChange ∨ ∃ result, ev = .act (.finishApply result)

theorem OwnEntry.posts {entry : LogEntry} (h : OwnEntry ev e entry) : ev.Posts := by
  cases h with
  | write h => exact Or.inl ⟨_, _, _, _, h⟩
  | config h => exact Or.inr (Or.inl h)

/-- The membership calls, the one under way and those that have ended. -/
def Engine.calls (e : Engine) : Option ConfigChange × List ConfigChange :=
  (e.configChange, e.changes)

/-- What a move does to proposals and table. -/
inductive Handles (ev : NodeEvent) (x : Engine) : Engine → Prop
  | rest {y : Engine} (hm : y.mail = x.mail) (hn : x.nextCall ≤ y.nextCall) : Handles ev x y
  | ended {p : Proposal} (hp : p ∈ x.proposals) : Handles ev x (x.endProposal p (x.proposalOutcome p))
  | proposed {entry : LogEntry} {timeout : Nat} (ho : OwnEntry ev x entry) :
      Handles ev x (x.proposed entry timeout)
  | noted {k t : Nat} {result r : Result} (ha : ev = .act (.finishApply r)) :
      Handles ev x (x.noteApplied k t result)

/-- Membership calls are moved by their own sections only. -/
theorem Move.handles (hm : Move ev b x y) : Handles ev x y ∧ (y.calls = x.calls ∨ ev.Changing) := by
  have hdesk : y.desk = x.desk → y.nextCall = x.nextCall →
      Handles ev x y ∧ (y.calls = x.calls ∨ ev.Changing) := fun hd hn =>
    ⟨.rest (congrArg (fun d : Desk => (d.waiters, d.proposals)) hd) (Nat.le_of_eq hn.symm),
      Or.inl (congrArg (fun d : Desk => (d.configChange, d.changes)) hd)⟩
  cases hm with
  | idle h hn => exact ⟨.rest (congrArg (·.mail) h :) hn, Or.inl (congrArg (·.calls) h :)⟩
  | adoptTerm =>
      obtain ⟨l, ls, t, hd⟩ := stepDown_eq (x.enterTerm _).saveVote
      exact hdesk (by rw [desk_stepDown]; rfl) (by rw [hd]; rfl)
  | stepDown =>
      obtain ⟨l, ls, t, hd⟩ := stepDown_eq x
      exact hdesk (desk_stepDown x) (by rw [hd])
  | noop =>
      obtain ⟨d, i, ms, ls, h, -⟩ := appended_eq x [x.newEntry .noop "" ""]
      exact hdesk (desk_appended x _) (by rw [h]; rfl)
  | propose timeout ho =>
      obtain ⟨d, i, ms, ls, c, h, -⟩ := proposed_eq x _ timeout
      exact ⟨.proposed ho, Or.inl (by rw [h]; rfl)⟩
  | receive =>
      obtain ⟨d, i, ms, ls, h, -⟩ := appended_eq x _
      exact hdesk (desk_appended x _) (by rw [h]; rfl)
  | truncate =>
      obtain ⟨d, ms, ls, h, -⟩ := truncated_eq x _
      exact hdesk (desk_truncated x _) (by rw [h]; rfl)
  | advanceCommit =>
      obtain ⟨c, h, -⟩ := advanceCommitIndex_eq x
      exact hdesk (desk_advanceCommitIndex x) (by rw [h])
  | followCommit =>
      obtain ⟨c, h, -⟩ := followCommit_eq x _ _
      exact hdesk (desk_followCommit x _ _) (by rw [h])
  | startReplicator =>
      obtain ⟨d, h, -⟩ := startReplicator_eq x _
      exact hdesk (desk_startReplicator x _) (by rw [h]; rfl)
  | install =>
      obtain ⟨d, ms, ls, h, -⟩ := installed_eq (x.setLock .free) _
      obtain ⟨st, fs, hu⟩ := uprooted_eq (x.setLock .free) _
      rw [h, hu]
      exact ⟨.rest rfl (Nat.le_refl _), Or.inl rfl⟩
  | installFails ha hi h =>
      rcases h with ⟨rfl, -⟩ | ⟨rfl, -⟩
      · exact ⟨.rest rfl (Nat.le_refl _), Or.inl rfl⟩
      · obtain ⟨st, fs, hu⟩ := uprooted_eq (x.setLock .free) _
        rw [hu]
        exact ⟨.rest rfl (Nat.le_refl _), Or.inl rfl⟩
  | noteApplied ha => exact ⟨.noted ha, Or.inl rfl⟩
  | endProposal hp hw => exact ⟨.ended hp, Or.inl rfl⟩
  | change ha => exact ⟨.rest rfl (Nat.le_refl _), Or.inr ha⟩
  | _ => exact ⟨.rest rfl (Nat.le_refl _), Or.inl rfl⟩

/-- What proposals and the applier go by. -/
def Engine.posts (e : Engine) :
    ApplyLock × (Dict Nat (Option (Nat × Result)) × List Proposal) × Nat × Nat :=
  (e.applyLock, e.mail, e.nextCall, e.node.commitIndex)

theorem Settles.of_posts (h : Settles past e) (hp : e'.posts = e.posts) : Settles past e' :=
  h.of_mail (congrArg (·.2.1) hp) (Nat.le_of_eq (congrArg (·.2.2.1) hp).symm)
    (Nat.le_of_eq (congrArg (·.2.2.2) hp).symm)

theorem Applying.of_posts (h : Applying past e) (hp : e'.posts = e.posts) : Applying past e' := by
  have hlock : e'.applyLock = e.applyLock := congrArg (·.1) hp
  have hcommit : e'.node.commitIndex = e.node.commitIndex := congrArg (·.2.2.2) hp
  intro k x hl
  rw [hcommit]
  exact h k x (hlock ▸ hl)

theorem posts_stepDown (e : Engine) : e.stepDown.posts = e.posts := by
  obtain ⟨l, ls, t, hd⟩ := stepDown_eq e
  rw [hd]
  rfl

theorem posts_startReplicator (e : Engine) (p : NodeId) : (e.startReplicator p).posts = e.posts := by
  obtain ⟨d, h, -⟩ := startReplicator_eq e p
  rw [h]
  rfl

theorem posts_maybeSnapshot (threshold : Nat) (h : e'.posts = e.posts) :
    wp (maybeSnapshot threshold) (fun _ y => y.posts = e.posts) (fun _ y => y.posts = e.posts) e' := by
  simp only [maybeSnapshot, wp_bind, wp_get, wp_ite, wp_pure, wp_modify, wp_storageCall]
  split
  · exact h
  · split
    · exact h
    · exact h

/-- A new process has an empty desk. -/
theorem desk_construct (e : Engine) : (after construct e).desk = e.blank.desk := by
  refine (wp_after (P := fun e' : Engine => e'.desk = e.blank.desk)).mp ?_
  have hrefresh : ∀ e' : Engine, e'.desk = e.blank.desk → e'.refreshConfig.markUp.desk = e.blank.desk := by
    intro e' h
    obtain ⟨d, ms, ls, hd, -⟩ := refreshConfig_eq e'
    rw [hd]
    exact h
  simp only [construct, restorePersistentState, wp_bind, wp_get, wp_ite, wp_modify, wp_storageCall]
  split
  · split
    · rfl
    · exact hrefresh _ rfl
  · exact hrefresh _ rfl

/-- The applier passes an entry's result on. -/
theorem Settles.noteApplied (h : Settles past e) {k : Nat} {x : LogEntry} {result : Result}
    (hc : Concluded past e.node.commitIndex k x.term result) :
    Settles past (e.noteApplied k x.term result) := by
  refine ⟨fun j t r hj => ?_, h.ids, h.unique, h.logged, h.returned⟩
  have hold : e.waiters.get? j = some (some (t, r)) → Concluded past e.node.commitIndex j t r :=
    h.waiters j t r
  unfold Engine.noteApplied at hj
  dsimp only at hj
  split at hj
  · rw [Dict.get?_set] at hj
    split at hj
    · rename_i hjk
      cases hj
      exact hjk ▸ hc
    · exact hold hj
  · exact hold hj

theorem Settles.finishApply (h : Settles past e) (ha : Applying past e) (result : Result) :
    Settles (past ++ [(e, .act (.finishApply result))]) (e.step (.act (.finishApply result))) ∧
      Applying (past ++ [(e, .act (.finishApply result))]) (e.step (.act (.finishApply result))) := by
  refine (wp_after (P := fun e' : Engine => Settles _ e' ∧ Applying _ e')).mp ?_
  simp only [NodeEvent.body, Action.body, KvCache.finishApply, wp_bind, wp_get]
  split
  · rename_i k x hl
    obtain ⟨hcommitted, hle⟩ := ha k x hl
    have happlied : AppliedIn (past ++ [(e, .act (.finishApply result))]) k x
        (x.command.applied result) := ⟨e, result, by simp, hl, rfl⟩
    have hnoted : Settles (past ++ [(e, .act (.finishApply result))])
        (e.noteApplied k x.term (x.command.applied result)) :=
      h.concat.noteApplied ⟨x, rfl, hcommitted.concat, happlied, hle⟩
    have hfree : Applying (past ++ [(e, .act (.finishApply result))])
        (e.noteApplied k x.term (x.command.applied result)) := fun _ _ hl => by cases hl
    have hdone : ∀ e' : Engine, e'.posts = (e.noteApplied k x.term (x.command.applied result)).posts →
        Settles _ e' ∧ Applying _ e' := fun e' hp => ⟨hnoted.of_posts hp, hfree.of_posts hp⟩
    simp only [wp_bind, wp_get, wp_ite, wp_modify]
    split
    · -- a leader that is no member any more
      simp only [becomeFollower, wp_bind, wp_get, wp_ite, wp_modify]
      rw [if_neg (Nat.lt_irrefl _)]
      exact wp_mono (posts_maybeSnapshot _ (posts_stepDown _)) (fun _ => hdone) fun _ => hdone
    · exact wp_mono (posts_maybeSnapshot _ rfl) (fun _ => hdone) fun _ => hdone
  · exact ⟨h.concat, ha.concat⟩

/-- `propose` appends its entry and waits, or raises. -/
theorem startProposal_spec (e : Engine) (command : Command) (username requestId : String)
    (timeout : Nat) :
    wp (startProposal command username requestId timeout)
      (fun id e' => e' = e.proposed (e.newEntry command username requestId) timeout ∧
        id = e.nextCall ∧ e.node.state = .leader ∧ e.running = true)
      (fun _ e' => e' = e ∨ e' = (e.extendLog [e.newEntry command username requestId]).useFault .append ∧
        e.node.state = .leader) e := by
  have hid : (((e.appended [e.newEntry command username requestId]).addWaiter
      (e.node.lastLogIndex + 1)).advanceCommitIndex).nextCall = e.nextCall := by
    obtain ⟨k, hk, -⟩ := advanceCommitIndex_eq ((e.appended
      [e.newEntry command username requestId]).addWaiter (e.node.lastLogIndex + 1))
    obtain ⟨d, i, ms, ls, ha, -⟩ := appended_eq e [e.newEntry command username requestId]
    rw [hk, ha]
    rfl
  unfold Engine.proposed
  unfold Engine.appended at hid ⊢
  simp only [startProposal, propose, appendLocal, wp_bind, wp_get, wp_ite, wp_throw, wp_modify,
    wp_storageCall, wp_pure]
  split
  · exact Or.inl trivial
  · rename_i hrun
    rw [not_or, Decidable.not_not, Bool.not_eq_true] at hrun
    split
    · exact Or.inl trivial
    · rename_i hl
      rw [Decidable.not_not] at hl
      split
      · exact Or.inr ⟨trivial, hl⟩
      · dsimp only at hid ⊢
        split
        · rename_i hc
          rw [if_pos hc] at hid
          exact ⟨rfl, hid, hl, hrun.1⟩
        · rename_i hc
          rw [if_neg hc] at hid
          exact ⟨rfl, hid, hl, hrun.1⟩

theorem entryAt_proposed (e : Engine) {entry : LogEntry} (hi : entry.index = e.node.lastLogIndex + 1)
    (timeout : Nat) : (e.proposed entry timeout).node.entryAt entry.index = some entry := by
  obtain ⟨d, i, ms, ls, c, h, -⟩ := proposed_eq e entry timeout
  rw [h]
  change (if _ then _ else (e.node.log ++ [entry])[entry.index - e.node.snapshotIndex - 1]?) = _
  have hlen : entry.index - e.node.snapshotIndex - 1 = e.node.log.length := by
    rw [hi]
    unfold RaftNode.lastLogIndex
    omega
  rw [if_neg, hlen, List.getElem?_concat_length]
  rw [not_or, Nat.not_le, Nat.not_lt]
  refine ⟨?_, ?_⟩
  · change e.node.snapshotIndex < entry.index
    rw [hi]
    exact Nat.lt_succ_of_le (Nat.le_add_right _ _)
  · change entry.index ≤ e.node.snapshotIndex + (e.node.log ++ [entry]).length
    rw [hi, List.length_append]
    exact Nat.le_of_eq (Nat.add_assoc _ _ _)

theorem commitIndex_proposed (e : Engine) (entry : LogEntry) (timeout : Nat) :
    e.node.commitIndex ≤ (e.proposed entry timeout).node.commitIndex := by
  obtain ⟨d, i, ms, ls, c, h, -, hk⟩ := proposed_eq e entry timeout
  rw [h]
  rcases hk with rfl | ⟨-, hscan⟩
  · exact Nat.le_refl _
  · obtain ⟨d', i', ms', ls', h', -⟩ := appended_eq e [entry]
    have hlt := (scanCommit_spec hscan).1
    rw [h'] at hlt
    exact Nat.le_of_lt hlt

/-- One more proposal, for an entry that is in the log. -/
theorem Settles.proposed (h : Settles past e) {entry : LogEntry} (hl : Logged past entry)
    (timeout : Nat) : Settles past (e.proposed entry timeout) := by
  have hcommit := commitIndex_proposed e entry timeout
  obtain ⟨d, i, ms, ls, c, heq, -⟩ := proposed_eq e entry timeout
  have hwaiters : (e.proposed entry timeout).waiters = e.waiters.set entry.index none := by
    rw [heq]
    rfl
  have hcall : (e.proposed entry timeout).nextCall = e.nextCall + 1 := by
    rw [heq]
    rfl
  have hmem : ∀ p ∈ (e.proposed entry timeout).proposals, p ∈ e.proposals ∨
      p.id = e.nextCall ∧ p.entry = entry ∧ p.phase = .waiting := fun p hp => by
    rw [heq] at hp
    rcases List.mem_append.mp hp with hp | hp
    · exact Or.inl hp
    · rw [List.mem_singleton.mp hp]
      exact Or.inr ⟨rfl, rfl, rfl⟩
  refine ⟨fun k t result hk => ?_, fun p hp => ?_, fun p hp q hq hid => ?_, fun p hp => ?_,
    fun p hp result hr => ?_⟩
  · rw [hwaiters, Dict.get?_set] at hk
    split at hk
    · cases hk
    · exact (h.waiters k t result hk).mono hcommit
  · rw [hcall]
    rcases hmem p hp with hp | ⟨hid, -⟩
    · exact Nat.lt_succ_of_lt (h.ids p hp)
    · exact hid ▸ Nat.lt_succ_self _
  · rcases hmem p hp with hp | ⟨hnew, hent, -⟩
    · rcases hmem q hq with hq | ⟨hnew', -⟩
      · exact h.unique p hp q hq hid
      · exact absurd (h.ids p hp) (by omega)
    · rcases hmem q hq with hq | ⟨-, hent', -⟩
      · exact absurd (h.ids q hq) (by omega)
      · rw [hent, hent']
  · rcases hmem p hp with hp | ⟨-, hent, -⟩
    · exact h.logged p hp
    · exact hent ▸ hl
  · rcases hmem p hp with hp | ⟨-, -, hw⟩
    · exact (h.returned p hp result hr).mono hcommit
    · rw [hw] at hr
      cases hr

/-- A membership call proposes the new membership. -/
theorem wakeChange_propose {c : ConfigChange} {members : List Member} (hc : e.configChange = some c)
    (hp : c.phase = .propose members) :
    (∃ timeout, e.node.state = .leader ∧ e.step (.act .wakeChange) =
        (e.proposed (e.newEntry (configCommand members) "" "") timeout).changePhase c
          (.await e.nextCall)) ∨
      ∃ error, e.step (.act .wakeChange) = e.changePhase c (.ending (some error)) ∨
        e.node.state = .leader ∧ e.step (.act .wakeChange) =
          ((e.extendLog [e.newEntry (configCommand members) "" ""]).useFault .append).changePhase c
            (.ending (some error)) := by
  refine (wp_after (P := fun e' : Engine => (∃ timeout, e.node.state = .leader ∧ e' =
      (e.proposed (e.newEntry (configCommand members) "" "") timeout).changePhase c
        (.await e.nextCall)) ∨ ∃ error, e' = e.changePhase c (.ending (some error)) ∨
      e.node.state = .leader ∧ e' = ((e.extendLog [e.newEntry (configCommand members) "" ""]).useFault
        .append).changePhase c (.ending (some error)))).mp ?_
  simp only [NodeEvent.body, Action.body, KvCache.wakeChange, wp_bind, wp_get]
  rw [hc]
  dsimp only
  rw [hp]
  simp only [proposeConfig, wp_bind, wp_get, wp_tryCatch]
  refine wp_mono (startProposal_spec e _ _ _ _) (fun id e' h => ?_) fun error e' h => ?_
  · obtain ⟨rfl, rfl, hl, -⟩ := h
    exact Or.inl ⟨_, hl, rfl⟩
  · rcases h with rfl | ⟨rfl, hl⟩
    · exact Or.inr ⟨error, Or.inl rfl⟩
    · exact Or.inr ⟨error, Or.inr ⟨hl, rfl⟩⟩

/-- In its other phases it proposes nothing. -/
theorem posts_wakeChange
    (h : ∀ c members, e.configChange = some c → c.phase ≠ .propose members) :
    (e.step (.act .wakeChange)).posts = e.posts := by
  have hcatch : ∀ (x : Engine) c m term, (x.catchUpLearner c m term).posts = x.posts := by
    intro x c m term
    unfold Engine.catchUpLearner
    split
    · split
      · rfl
      · rfl
    · rfl
  have hidle : ∀ (x : Engine) c term, (x.waitConfigIdle c term).posts = x.posts := by
    intro x c term
    unfold Engine.waitConfigIdle Engine.changeIdle
    split
    · split
      · rfl
      · rfl
    · split
      · rename_i m _
        rw [hcatch, posts_startReplicator]
        rfl
      · rfl
  refine (wp_after (P := fun e' : Engine => e'.posts = e.posts)).mp ?_
  simp only [NodeEvent.body, Action.body, KvCache.wakeChange, wp_bind, wp_get]
  split
  · rfl
  · rename_i c hc
    split
    · exact hidle e c _
    · split
      · exact hcatch e c _ _
      · rfl
    · rename_i members hp
      exact absurd hp (h c members hc)
    · split
      · split
        · rfl
        · rfl
        · rfl
      · rfl
    · simp only [wp_modify]
      unfold Engine.forgetLearner
      split
      · split
        · rfl
        · rfl
      · rfl
    · rfl
    · rfl

theorem posts_changePhase (e : Engine) (c : ConfigChange) (phase : ConfigPhase) :
    (e.changePhase c phase).posts = e.posts := rfl

theorem node_changePhase (e : Engine) (c : ConfigChange) (phase : ConfigPhase) :
    (e.changePhase c phase).node = e.node := rfl

theorem logged_proposed {entry : LogEntry} (hi : entry.index = e.node.lastLogIndex + 1)
    (timeout : Nat) (hs : (e.step ev).node = (e.proposed entry timeout).node) :
    Logged (past ++ [(e, ev)]) entry := by
  refine ⟨(e, ev), List.mem_append_right _ (List.mem_singleton_self _), ?_⟩
  rw [hs]
  exact entryAt_proposed e hi timeout

theorem Settles.wakeChange (h : Settles past e) :
    Settles (past ++ [(e, .act .wakeChange)]) (e.step (.act .wakeChange)) := by
  have hconcat : Settles (past ++ [(e, .act .wakeChange)]) e := h.concat
  by_cases hp : ∃ c members, e.configChange = some c ∧ c.phase = .propose members
  · obtain ⟨c, members, hc, hp⟩ := hp
    rcases wakeChange_propose hc hp with ⟨timeout, -, hs⟩ | ⟨error, hs | ⟨-, hs⟩⟩
    · have hl : Logged (past ++ [(e, .act .wakeChange)]) (e.newEntry (configCommand members) "" "") :=
        logged_proposed rfl timeout (by rw [hs, node_changePhase])
      rw [hs]
      exact (hconcat.proposed hl timeout).of_posts (posts_changePhase _ _ _)
    · rw [hs]
      exact hconcat.of_posts (posts_changePhase _ _ _)
    · rw [hs]
      exact hconcat.of_posts rfl
  · exact hconcat.of_posts (posts_wakeChange fun c members hc hph => hp ⟨c, members, hc, hph⟩)

theorem Settles.propose (h : Settles past e) (text username requestId : String) (timeout : Nat) :
    Settles (past ++ [(e, .act (.propose text username requestId timeout))])
      (e.step (.act (.propose text username requestId timeout))) := by
  have hcases : (∃ entry, entry.index = e.node.lastLogIndex + 1 ∧
      e.step (.act (.propose text username requestId timeout)) = e.proposed entry timeout) ∨
      (e.step (.act (.propose text username requestId timeout))).posts = e.posts := by
    refine (wp_after (P := fun e' : Engine => (∃ entry, entry.index = e.node.lastLogIndex + 1 ∧
      e' = e.proposed entry timeout) ∨ e'.posts = e.posts)).mp ?_
    simp only [NodeEvent.body, Action.body, wp_bind]
    refine wp_mono (startProposal_spec e _ _ _ _) (fun id e' h => ?_) fun error e' h => ?_
    · exact Or.inl ⟨_, rfl, h.1⟩
    · rcases h with rfl | ⟨rfl, -⟩
      · exact Or.inr rfl
      · exact Or.inr rfl
  rcases hcases with ⟨entry, hi, hs⟩ | hs
  · have hl : Logged (past ++ [(e, .act (.propose text username requestId timeout))]) entry :=
      logged_proposed hi timeout (congrArg Engine.node hs)
    rw [hs]
    exact h.concat.proposed hl timeout
  · exact h.concat.of_posts hs

theorem Applying.beginApply (h : Applying past e) :
    Applying (past ++ [(e, .act .beginApply)]) (e.step (.act .beginApply)) := by
  refine (wp_after (P := fun e' : Engine => Applying _ e')).mp ?_
  simp only [NodeEvent.body, Action.body, KvCache.beginApply, wp_bind, wp_get]
  split
  · rename_i x _ hx
    simp only [wp_ite, wp_modify, wp_pure]
    split
    · rename_i hrun
      intro k x' hl
      cases hl
      exact ⟨⟨(e, .act .beginApply), by simp, hx, hrun.2⟩, hrun.2⟩
    · exact h.concat
  · exact h.concat

end Steps

/-! ## Every course of a node -/

/-- The entry that was appended for the proposal is the one that was committed,
and the one for which the applier got `result`. -/
structure Acknowledged (past : List (Engine × NodeEvent)) (e : Engine) (p : Proposal)
    (result : Result) : Prop where
  logged : Logged past p.entry
  committed : CommittedIn past p.entry.index p.entry
  index_le : p.entry.index ≤ e.node.commitIndex
  applied : AppliedIn past p.entry.index p.entry result

section Courses

variable {start e : Engine} {past : List (Engine × NodeEvent)} {p : Proposal} {result : Result}

theorem Settles.acknowledged (h : Settles past e) (hi : Identified past) (hp : p ∈ e.proposals)
    (hr : p.phase = .returned result) : Acknowledged past e p result := by
  have hl := h.logged p hp
  obtain ⟨x, ht, hc, ha, hle⟩ := h.returned p hp result hr
  have hx : x = p.entry := by
    obtain ⟨s, hs, hx, -⟩ := hc
    obtain ⟨s', hs', hx'⟩ := hl
    exact hi s hs s' hs' _ x p.entry hx hx' ht
  subst hx
  exact ⟨hl, hc, hle, ha⟩

/-- Every section of a run, with the state before. -/
def Engine.trail (e : Engine) : List NodeEvent → List (Engine × NodeEvent)
  | [] => []
  | ev :: evs => (e, ev) :: (e.step ev).trail evs

theorem Identified.mono {past' : List (Engine × NodeEvent)} (h : Identified past') (hs : past ⊆ past') :
    Identified past :=
  fun s hin s' hin' => h s (hs hin) s' (hs hin')

theorem Engine.Course.run (h : start.Course past e) (evs : List NodeEvent) :
    start.Course (past ++ e.trail evs) (e.run evs) := by
  induction evs generalizing past e with
  | nil =>
      unfold Engine.trail
      rw [List.append_nil]
      exact h
  | cons ev evs ih =>
      have hstep := ih (h.step ev)
      rw [List.append_assoc, List.singleton_append] at hstep
      exact hstep

end Courses

/-! ## Every node of a cluster -/

section Worlds

variable {c : Cluster} {evs : List WorldEvent} {i : NodeId}

/-- The event is this section of node `i`. -/
def WorldEvent.Runs (ev : WorldEvent) (i : NodeId) (nev : NodeEvent) : Prop :=
  (∃ a, ev = .act i a ∧ nev = .act a) ∨ ∃ k p, ev = .deliver i k ∧ nev = .receive p

end Worlds

/-! ## The theorem -/

/-- The proposal of the write. -/
def answered : Proposal where
  id := 0
  entry := { term := 1, index := 2, command := .write "SET k v", username := "u" }
  deadline := 1000
  phase := .returned .none

end KvCache

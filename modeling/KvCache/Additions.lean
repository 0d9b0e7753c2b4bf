import KvCache.Proposals

/-!
# A reported addition

`add_member` has two ways to return. It answers at once when the member is in
force already; and a membership is in force as soon as its CONFIG entry is in
the log, so that answer may be about an entry that is not committed and never
will be. Otherwise the call waits, proposes a CONFIG entry of its own, and
returns when that proposal has come back.

What a call stands for depends on its phase (`ConfigPhase.Adds`): while it
waits, that the steps since it got the lock are its own (`CallSince`); once it
has proposed, that the entry of its proposal is its own (`OwnConfig`); at the
end, that this entry is committed. Every section keeps this (`adding_step`),
without a condition. For the answer at once there has to be one, on the state
it finds (`FoundIdle`): it is what `_wait_config_idle` waits for on the other
way.
-/

namespace KvCache

open StateWp Engine

/-- The last steps of `past` are those of one call of `add_member`, since it
got the lock. -/
def CallSince (past during : List (Engine × NodeEvent)) (m : Member) : Prop :=
  ∃ before start deadline,
    past = before ++ (start, .act (.changeMembership (.add m) deadline)) :: during ∧
      start.configChange = none ∧ ∀ s ∈ during, s.1.configChange.isSome = true

/-- The call of `add_member` that is under way appended this entry to the log,
and it is a CONFIG entry with the member. -/
def OwnConfig (past : List (Engine × NodeEvent)) (m : Member) (x : LogEntry) : Prop :=
  (∃ ms, parseConfig x.command = some ms ∧ m ∈ ms) ∧
    ∃ during, CallSince past during m ∧ ∃ s ∈ during, s.2 = .act .wakeChange ∧
      x.index = s.1.node.lastLogIndex + 1 ∧ x.term = s.1.node.currentTerm ∧
      x ∈ (s.1.step s.2).node.log

/-- The entry that the call appended is committed. -/
def OwnCommitted (past : List (Engine × NodeEvent)) (e : Engine) (m : Member) : Prop :=
  ∃ x, OwnConfig past m x ∧ CommittedIn past x.index x ∧ x.index ≤ e.node.commitIndex

/-- What a call of `add_member` stands for in a phase. -/
def ConfigPhase.Adds (past : List (Engine × NodeEvent)) (e : Engine) (m : Member) :
    ConfigPhase → Prop
  | .waitIdle _ | .catchUp _ => ∃ during, CallSince past during m
  | .propose members => m ∈ members ∧ ∃ during, CallSince past during m
  | .await id => id < e.nextCall ∧ ∀ p ∈ e.proposals, p.id = id → OwnConfig past m p.entry
  | .ending none => OwnCommitted past e m
  | .ending (some _) | .returned | .failed _ => True

/-- An addition under way is what its phase says. -/
def Adding (past : List (Engine × NodeEvent)) (e : Engine) : Prop :=
  ∀ c, e.configChange = some c → ∀ m, c.change = .add m → c.phase.Adds past e m

section Past

variable {past during : List (Engine × NodeEvent)} {s : Engine × NodeEvent} {m : Member}
  {e e' : Engine} {phase : ConfigPhase} {x : LogEntry}

theorem mem_of_entryAt {n : RaftNode} {k : Nat} {x : LogEntry} (h : n.entryAt k = some x) :
    x ∈ n.log := by
  unfold RaftNode.entryAt at h
  split at h
  · cases h
  · exact List.mem_of_getElem? h

theorem CallSince.concat (h : CallSince past during m) (hs : s.1.configChange.isSome = true) :
    CallSince (past ++ [s]) (during ++ [s]) m := by
  obtain ⟨before, start, deadline, rfl, hidle, hbusy⟩ := h
  refine ⟨before, start, deadline, by simp, hidle, fun s' hs' => ?_⟩
  rcases List.mem_append.mp hs' with hs' | hs'
  · exact hbusy s' hs'
  · obtain rfl := List.mem_singleton.mp hs'
    exact hs

theorem OwnConfig.concat (h : OwnConfig past m x) (hs : s.1.configChange.isSome = true) :
    OwnConfig (past ++ [s]) m x := by
  obtain ⟨hparse, during, hcall, s', hs', hown⟩ := h
  exact ⟨hparse, _, hcall.concat hs, s', List.mem_append_left _ hs', hown⟩

theorem OwnCommitted.concat (h : OwnCommitted past e m) (hs : s.1.configChange.isSome = true) :
    OwnCommitted (past ++ [s]) e m := by
  obtain ⟨x, hown, hc, hle⟩ := h
  exact ⟨x, hown.concat hs, hc.concat, hle⟩

theorem OwnCommitted.later (h : OwnCommitted past e m)
    (hc : e.node.commitIndex ≤ e'.node.commitIndex) : OwnCommitted past e' m := by
  obtain ⟨x, hown, hx, hle⟩ := h
  exact ⟨x, hown, hx, hle.trans hc⟩

end Past

/-! ## Sections that do not move membership calls -/

/-- Proposals are only added, under new numbers. -/
structure Grown (x y : Engine) : Prop where
  nextCall : x.nextCall ≤ y.nextCall
  proposals : ∀ p ∈ y.proposals,
    (∃ q ∈ x.proposals, q.id = p.id ∧ q.entry = p.entry) ∨ x.nextCall ≤ p.id

section Steps

variable {past : List (Engine × NodeEvent)} {e e' x y z : Engine} {ev : NodeEvent} {m : Member}
  {phase : ConfigPhase} {c : ConfigChange} {b : Bool}

theorem Grown.refl (x : Engine) : Grown x x := ⟨Nat.le_refl _, fun p hp => Or.inl ⟨p, hp, rfl, rfl⟩⟩

theorem Grown.trans (h : Grown x y) (h' : Grown y z) : Grown x z := by
  refine ⟨h.nextCall.trans h'.nextCall, fun p hp => ?_⟩
  rcases h'.proposals p hp with ⟨q, hq, hid, hent⟩ | hnew
  · rcases h.proposals q hq with ⟨r, hr, hid', hent'⟩ | hnew
    · exact Or.inl ⟨r, hr, hid'.trans hid, hent'.trans hent⟩
    · exact Or.inr (hid ▸ hnew)
  · exact Or.inr (h.nextCall.trans hnew)

theorem Grown.of_mail (hm : y.mail = x.mail) (hn : x.nextCall ≤ y.nextCall) : Grown x y := by
  have hp : y.proposals = x.proposals := congrArg (·.2) hm
  exact ⟨hn, fun p hin => Or.inl ⟨p, hp ▸ hin, rfl, rfl⟩⟩

theorem grown_proposed (x : Engine) (entry : LogEntry) (timeout : Nat) :
    Grown x (x.proposed entry timeout) := by
  obtain ⟨d, i, ms, ls, c, h, -⟩ := proposed_eq x entry timeout
  rw [h]
  refine ⟨Nat.le_succ _, fun p hp => ?_⟩
  rcases List.mem_append.mp hp with hp | hp
  · exact Or.inl ⟨p, hp, rfl, rfl⟩
  · rw [List.mem_singleton.mp hp]
    exact Or.inr (Nat.le_refl _)

theorem Handles.grown (h : Handles ev x y) : Grown x y := by
  cases h with
  | rest hm hn => exact .of_mail hm hn
  | ended hp =>
      refine ⟨Nat.le_refl _, fun q hq => Or.inl ?_⟩
      rcases mem_endProposal hq with hq | ⟨r, hr, -, rfl⟩
      · exact ⟨q, hq, rfl, rfl⟩
      · exact ⟨r, hr, rfl, rfl⟩
  | proposed => exact grown_proposed x _ _
  | noted => exact ⟨Nat.le_refl _, fun q hq => Or.inl ⟨q, hq, rfl, rfl⟩⟩

theorem grown_step (hr : ev ≠ .act .restart) :
    Grown e (e.step ev) ∧ (ev.Changing ∨ (e.step ev).calls = e.calls) := by
  refine (section_step hr).keeps (P := fun y => Grown e y ∧ (ev.Changing ∨ y.calls = e.calls))
    ⟨.refl e, Or.inr rfl⟩ (fun b x y hm hx => ?_)
    fun x _ _ hx => ⟨hx.1.trans (.of_mail rfl (Nat.le_refl _)), hx.2⟩
  obtain ⟨hh, hc⟩ := hm.handles
  refine ⟨hx.1.trans hh.grown, ?_⟩
  rcases hx.2 with hev | hx
  · exact Or.inl hev
  · rcases hc with hc | hev
    · exact Or.inr (hc.trans hx)
    · exact Or.inl hev

theorem ConfigPhase.Adds.concat (h : phase.Adds past e m) {s : Engine × NodeEvent}
    (hs : s.1.configChange.isSome = true) : phase.Adds (past ++ [s]) e m := by
  cases phase with
  | waitIdle => exact h.imp' _ fun _ hcall => hcall.concat hs
  | catchUp => exact h.imp' _ fun _ hcall => hcall.concat hs
  | propose members => exact ⟨h.1, h.2.imp' _ fun _ hcall => hcall.concat hs⟩
  | await id => exact ⟨h.1, fun p hp hid => (h.2 p hp hid).concat hs⟩
  | ending error? =>
      cases error? with
      | none => exact OwnCommitted.concat (m := m) h hs
      | some error => trivial
  | returned => trivial
  | failed error => trivial

theorem ConfigPhase.Adds.later (h : phase.Adds past x m) (hg : Grown x y)
    (hc : x.node.commitIndex ≤ y.node.commitIndex) : phase.Adds past y m := by
  cases phase with
  | await id =>
      refine ⟨Nat.lt_of_lt_of_le h.1 hg.nextCall, fun p hp hid => ?_⟩
      rcases hg.proposals p hp with ⟨q, hq, hid', hent⟩ | hnew
      · rw [← hent]
        exact h.2 q hq (hid'.trans hid)
      · exact absurd h.1 (by omega)
  | ending error? =>
      cases error? with
      | none => exact OwnCommitted.later (m := m) h hc
      | some error => trivial
  | _ => exact h

theorem Adding.concat (h : Adding past e) (ev : NodeEvent) : Adding (past ++ [(e, ev)]) e :=
  fun c hc m hm => (h c hc m hm).concat (Option.isSome_of_eq_some hc)

theorem Adding.later (h : Adding past x) (hcalls : y.calls = x.calls) (hg : Grown x y)
    (hc : x.node.commitIndex ≤ y.node.commitIndex) : Adding past y := by
  have hrun : y.configChange = x.configChange := congrArg (·.1) hcalls
  exact fun c hch m hm => (h c (hrun ▸ hch) m hm).later hg hc

/-! ## The sections of a membership call -/

/-- The call goes on in a phase that it may be in. -/
theorem adding_changePhase (hp : ∀ m, c.change = .add m → phase.Adds past e m) :
    Adding past (e.changePhase c phase) := by
  intro c' hc m hm
  obtain rfl : { c with phase := phase } = c' := Option.some.inj hc
  exact (hp m hm).later (.of_mail rfl (Nat.le_refl _)) (Nat.le_refl _)

theorem adding_endChange {error? : Option EngineError} : Adding past (e.endChange c error?) :=
  fun c' hc => by cases hc

theorem adding_catchUpLearner (hm : c.change = .add m) (hcall : ∃ during, CallSince past during m)
    (term : Nat) : Adding past (e.catchUpLearner c m term) := by
  have hsame : ∀ m', c.change = .add m' → m' = m := fun m' hm' => by
    obtain rfl : m = m' := Change.add.inj (hm.symm.trans hm')
    rfl
  unfold Engine.catchUpLearner
  split
  · split
    · exact adding_endChange
    · exact adding_changePhase fun m' hm' => hsame m' hm' ▸ hcall
  · refine adding_changePhase fun m' hm' => ⟨?_, hsame m' hm' ▸ hcall⟩
    rw [hsame m' hm']
    exact List.mem_append_right _ (List.mem_singleton_self _)

theorem adding_waitConfigIdle (hcall : ∀ m, c.change = .add m → ∃ during, CallSince past during m)
    (term : Nat) : Adding past (e.waitConfigIdle c term) := by
  unfold Engine.waitConfigIdle Engine.changeIdle
  split
  · split
    · exact adding_endChange
    · exact adding_changePhase hcall
  · split
    · rename_i m hm
      exact adding_catchUpLearner hm (hcall m hm) _
    · rename_i nodeId hm
      refine adding_changePhase fun m hm' => ?_
      rw [hm] at hm'
      cases hm'

theorem requireLeader_eq_none (h : e.requireLeader = none) :
    e.running = true ∧ e.node.state = .leader := by
  unfold Engine.requireLeader at h
  split at h
  · cases h
  · rename_i hn
    rw [not_or, Decidable.not_not, Decidable.not_not] at hn
    exact hn

/-- A call that gets the lock starts with the step it is in. -/
theorem Adding.changeMembership (h : Adding past e) (change : Change) (deadline : Nat) :
    Adding (past ++ [(e, .act (.changeMembership change deadline))])
      (e.step (.act (.changeMembership change deadline))) := by
  refine (wp_after (P := fun e' : Engine => Adding _ e')).mp ?_
  simp only [NodeEvent.body, Action.body, KvCache.changeMembership, wp_modify]
  split
  · exact h.concat _
  · rename_i hidle
    rw [Bool.not_eq_true, Option.isSome_eq_false_iff, Option.isNone_iff_eq_none] at hidle
    split
    · exact adding_endChange
    · split
      · exact adding_endChange
      · refine adding_waitConfigIdle (fun m hm => ?_) _
        subst hm
        exact ⟨[], past, e, deadline, rfl, hidle, fun s hs => absurd hs List.not_mem_nil⟩

theorem mem_parseConfig {members : List Member} (h : m ∈ members) :
    ∃ ms, parseConfig (configCommand members) = some ms ∧ m ∈ ms :=
  ⟨_, rfl, (List.mem_insertionSort _).mpr h⟩

/-- The CONFIG entry is appended; the call waits for its proposal. -/
theorem adding_proposed (hset : Settles past e) {members : List Member} {timeout : Nat}
    (hown : ∀ m, c.change = .add m → OwnConfig past m (e.newEntry (configCommand members) "" "")) :
    Adding past ((e.proposed (e.newEntry (configCommand members) "" "") timeout).changePhase c
      (.await e.nextCall)) := by
  obtain ⟨d, i, ms, ls, k, heq, -⟩ := proposed_eq e (e.newEntry (configCommand members) "" "") timeout
  refine adding_changePhase fun m hch => ⟨?_, fun p hp hid => ?_⟩
  · rw [heq]
    exact Nat.lt_succ_self _
  · rw [heq] at hp
    rcases List.mem_append.mp hp with hp | hp
    · exact absurd (hset.ids p hp) (by omega)
    · rw [List.mem_singleton.mp hp]
      exact hown m hch

theorem Adding.wakeChange (h : Adding past e) (hset : Settles past e) (hi : Identified past) :
    Adding (past ++ [(e, .act .wakeChange)]) (e.step (.act .wakeChange)) := by
  have hconcat : Adding (past ++ [(e, .act .wakeChange)]) e := h.concat _
  have hset' : Settles (past ++ [(e, .act .wakeChange)]) e := hset.concat
  by_cases hprop : ∃ c members, e.configChange = some c ∧ c.phase = .propose members
  · obtain ⟨c, members, hc, hp⟩ := hprop
    rcases wakeChange_propose hc hp with ⟨timeout, -, hs⟩ | ⟨error, hs | ⟨-, hs⟩⟩
    · have hown : ∀ m, c.change = .add m → OwnConfig (past ++ [(e, .act .wakeChange)]) m
          (e.newEntry (configCommand members) "" "") := fun m hm => by
        have hadds := h c hc m hm
        rw [hp] at hadds
        obtain ⟨hin, during, hcall⟩ := hadds
        have hlog : e.newEntry (configCommand members) "" "" ∈ (e.step (.act .wakeChange)).node.log := by
          rw [hs, node_changePhase]
          exact mem_of_entryAt (entryAt_proposed e rfl timeout)
        exact ⟨mem_parseConfig hin, _, hcall.concat (Option.isSome_of_eq_some hc), _,
          List.mem_append_right _ (List.mem_singleton_self _), rfl, rfl, rfl, hlog⟩
      rw [hs]
      exact adding_proposed hset' hown
    · rw [hs]
      exact adding_changePhase fun _ _ => trivial
    · rw [hs]
      exact adding_changePhase fun _ _ => trivial
  · refine (wp_after (P := fun e' : Engine => Adding _ e')).mp ?_
    simp only [NodeEvent.body, Action.body, KvCache.wakeChange, wp_bind, wp_get]
    split
    · exact hconcat
    · rename_i c hc
      split
      · rename_i hp
        refine adding_waitConfigIdle (fun m hm => ?_) _
        have hadds := hconcat c hc m hm
        rwa [hp] at hadds
      · rename_i hp
        split
        · rename_i m hm
          have hadds := hconcat c hc m hm
          rw [hp] at hadds
          exact adding_catchUpLearner hm hadds _
        · exact hconcat
      · rename_i members hp
        exact absurd ⟨c, members, hc, hp⟩ hprop
      · rename_i id hp
        split
        · rename_i p hfind
          split
          · exact hconcat
          · rename_i result hret
            -- the proposal came back
            refine adding_changePhase fun m hm => ?_
            have hadds := hconcat c hc m hm
            rw [hp] at hadds
            have hid : p.id = id := by simpa using List.find?_some hfind
            have hin := List.mem_of_find?_eq_some hfind
            have hack := hset.acknowledged hi hin hret
            exact ⟨p.entry, hadds.2 p hin hid, hack.committed.concat, hack.index_le⟩
          · exact adding_changePhase fun _ _ => trivial
        · exact hconcat
      · exact adding_endChange
      · exact hconcat
      · exact hconcat

end Steps

/-! ## Every course of a node -/

end KvCache

import KvCache.Additions
import KvCache.Elections
import KvCache.NewLeader

/-!
# One member at a time

`add_member` and `remove_member` compute the new membership under the state
lock and give it to `propose` after they released it. `propose` checks that the
node leads, not that it still leads the term in which the call began. As long
as it does, the membership is the one the call saw, and what it waited for is
committed. A node that lost the term and leads a later one proposes a
membership that was computed for another log.
-/

/-- The mappings differ at one key, which one of them lacks. -/
def Dict.OneApart {κ υ : Type} [DecidableEq κ] (d d' : Dict κ υ) : Prop :=
  ∃ k, (d.get? k).isSome ≠ (d'.get? k).isSome ∧ ∀ j, j ≠ k → d.get? j = d'.get? j

namespace KvCache

open StateWp Engine

/-! ## Memberships -/

/-- The change was let through: the member is new, or is there. -/
def Change.Possible (members : Dict NodeId Member) : Change → Prop
  | .add m => members.get? m.nodeId = none
  | .remove nodeId => members.contains nodeId = true

/-- The membership that is proposed. -/
def Change.result (members : Dict NodeId Member) : Change → List Member
  | .add m => members.values ++ [m]
  | .remove nodeId => members.values.filter (·.nodeId ≠ nodeId)

section Memberships

variable {d : Dict NodeId Member} {ms : List Member} {k : NodeId} {m : Member} {change : Change}

theorem map_fst_membersOf (ms : List Member) :
    (ms.map fun m => (m.nodeId, m)).map Prod.fst = ms.map (·.nodeId) := by
  rw [List.map_map]
  rfl

/-- Every member of a membership is filed under its own id. -/
theorem nodeId_membersOf (h : (membersOf ms).get? k = some m) : m.nodeId = k := by
  obtain ⟨m', -, hm⟩ := List.mem_map.mp (Dict.mem_of_get?_ofList h)
  cases hm
  rfl

theorem get?_membersOf (hnodup : (ms.map (·.nodeId)).Nodup) :
    (membersOf ms).get? k = some m ↔ m ∈ ms ∧ m.nodeId = k := by
  unfold membersOf
  rw [Dict.get?_ofList_of_nodup (by rw [map_fst_membersOf]; exact hnodup)]
  constructor
  · intro h
    obtain ⟨m', hm', heq⟩ := List.mem_map.mp h
    cases heq
    exact ⟨hm', rfl⟩
  · rintro ⟨hm, rfl⟩
    exact List.mem_map.mpr ⟨m, hm, rfl⟩

/-- A dictionary that files every member under its own id. -/
def Filed (d : Dict NodeId Member) : Prop := ∀ k m, d.get? k = some m → m.nodeId = k

theorem Engine.Current.filed {e : Engine} (h : e.Current d) : Filed d := fun k _ hm =>
  nodeId_membersOf ((Dict.sameItems_iff.mp h k).trans hm)

theorem Filed.mem_values (h : Filed d) : m ∈ d.values ↔ d.get? m.nodeId = some m := by
  constructor
  · intro hm
    obtain ⟨⟨k, m'⟩, hp, rfl⟩ := List.mem_map.mp hm
    have hk := Dict.get?_eq_some.mpr hp
    rw [h k m' hk]
    exact hk
  · exact fun hm => List.mem_map.mpr ⟨(m.nodeId, m), Dict.get?_eq_some.mp hm, rfl⟩

theorem Filed.values_nodup (h : Filed d) : (d.values.map (·.nodeId)).Nodup := by
  have hkeys : d.values.map (·.nodeId) = d.keys := by
    unfold Dict.values Dict.keys
    rw [List.map_map]
    refine List.map_congr_left fun p hp => ?_
    exact h p.1 p.2 (Dict.get?_eq_some.mpr hp)
  rw [hkeys]
  exact d.nodup

theorem Filed.result_nodup (h : Filed d) (hp : change.Possible d) :
    ((change.result d).map (·.nodeId)).Nodup := by
  cases change with
  | add m =>
      unfold Change.result
      rw [List.map_append, List.nodup_append]
      refine ⟨h.values_nodup, List.nodup_singleton _, fun a ha b hb hab => ?_⟩
      obtain ⟨m', hm', rfl⟩ := List.mem_map.mp ha
      have hget := h.mem_values.mp hm'
      rw [hab, List.mem_singleton.mp hb, show d.get? m.nodeId = none from hp] at hget
      cases hget
  | remove nodeId => exact h.values_nodup.sublist (List.filter_sublist.map _)

/-- What a change makes differs from what it found at the one member. -/
theorem Filed.oneApart_result (h : Filed d) (hp : change.Possible d) :
    d.OneApart (membersOf ((change.result d).insertionSort fun a b => a.nodeId ≤ b.nodeId)) := by
  have hperm := List.perm_insertionSort (fun a b : Member => a.nodeId ≤ b.nodeId) (change.result d)
  have hnodup := (hperm.map (·.nodeId)).nodup_iff.mpr (h.result_nodup hp)
  have hget : ∀ k m, (membersOf ((change.result d).insertionSort fun a b => a.nodeId ≤ b.nodeId)).get? k
      = some m ↔ m ∈ change.result d ∧ m.nodeId = k := fun k m => by
    rw [get?_membersOf hnodup, hperm.mem_iff]
  cases change with
  | add m =>
      have hnone : d.get? m.nodeId = none := hp
      refine ⟨m.nodeId, ?_, fun j hj => Option.ext fun m' => ?_⟩
      · rw [hnone, (hget m.nodeId m).mpr ⟨List.mem_append_right _ (List.mem_singleton_self m), rfl⟩]
        exact Bool.false_ne_true
      · rw [hget j m']
        constructor
        · intro hm'
          obtain rfl := h j m' hm'
          exact ⟨List.mem_append_left _ (h.mem_values.mpr hm'), rfl⟩
        · rintro ⟨hm', rfl⟩
          rcases List.mem_append.mp hm' with hm' | hm'
          · exact h.mem_values.mp hm'
          · rw [List.mem_singleton.mp hm'] at hj
            exact absurd rfl hj
  | remove nodeId =>
      have hsome : (d.get? nodeId).isSome = true := hp
      refine ⟨nodeId, ?_, fun j hj => Option.ext fun m' => ?_⟩
      · have hgone : (membersOf (((Change.remove nodeId).result d).insertionSort
            fun a b => a.nodeId ≤ b.nodeId)).get? nodeId = none := by
          rw [Option.eq_none_iff_forall_ne_some]
          intro m hm
          obtain ⟨hin, hid⟩ := (hget nodeId m).mp hm
          have := (List.mem_filter.mp hin).2
          rw [decide_eq_true_eq] at this
          exact this hid
        rw [hsome, hgone]
        decide
      · rw [hget j m']
        constructor
        · intro hm'
          obtain rfl := h j m' hm'
          exact ⟨List.mem_filter.mpr ⟨h.mem_values.mpr hm', decide_eq_true hj⟩, rfl⟩
        · rintro ⟨hm', rfl⟩
          exact h.mem_values.mp (List.mem_filter.mp hm').1

end Memberships

/-! ## Calls in office -/

/-- Our own no-op and the newest CONFIG entry are committed. -/
def Engine.Idle (e : Engine) : Prop := max e.termStartIndex e.configIndex ≤ e.node.commitIndex

/-- What a phase of a call relies on while its leader is in office. -/
def ConfigPhase.Plans (e : Engine) (change : Change) : ConfigPhase → Prop
  | .waitIdle _ => change.Possible e.members
  | .catchUp _ => change.Possible e.members ∧ e.Idle
  | .propose members => change.Possible e.members ∧ e.Idle ∧ members = change.result e.members
  | _ => True

/-- The call under way keeps what its phase relies on, until the term in which
it began is lost. -/
def Engine.Planned (e : Engine) : Prop :=
  ∀ c, e.configChange = some c → Lost c.since e ∨ Leads c.since e ∧ c.phase.Plans e c.change

section Planned

variable {e x y : Engine} {ev : NodeEvent} {c : ConfigChange} {phase : ConfigPhase} {m : Member}
  {t : Nat} {change : Change}

theorem Engine.Idle.keepsSeat (h : e.Idle) (hs : e.KeepsSeat y)
    (hc : e.node.commitIndex ≤ y.node.commitIndex) : y.Idle := by
  have := hs.configIndex
  unfold Engine.Idle at h ⊢
  rw [hs.termStartIndex]
  omega

theorem ConfigPhase.Plans.keepsSeat (h : phase.Plans e change) (hs : e.KeepsSeat y)
    (hc : e.node.commitIndex ≤ y.node.commitIndex) : phase.Plans y change := by
  unfold ConfigPhase.Plans at h ⊢
  rw [hs.members]
  split
  · exact h
  · exact ⟨h.1, h.2.keepsSeat hs hc⟩
  · exact ⟨h.1, h.2.1.keepsSeat hs hc, h.2.2⟩
  · trivial

theorem Engine.Planned.of_none (h : y.configChange = none) : y.Planned := fun c hc => by
  rw [h] at hc
  cases hc

/-- The call goes on in a phase that may rely on what it saw. -/
theorem planned_changePhase (h : Lost c.since e ∨ Leads c.since e ∧ phase.Plans e c.change) :
    (e.changePhase c phase).Planned := fun c' hc => by
  obtain rfl : { c with phase := phase } = c' := Option.some.inj hc
  exact h

theorem planned_catchUpLearner (hm : c.change = .add m) (term : Nat)
    (h : Lost c.since e ∨ Leads c.since e ∧ c.change.Possible e.members ∧ e.Idle) :
    (e.catchUpLearner c m term).Planned := by
  unfold Engine.catchUpLearner
  split
  · split
    · exact .of_none rfl
    · exact planned_changePhase h
  · refine planned_changePhase (h.imp id fun h => ⟨h.1, h.2.1, h.2.2, ?_⟩)
    rw [hm]
    rfl

theorem planned_waitConfigIdle (term : Nat)
    (h : Lost c.since e ∨ Leads c.since e ∧ c.change.Possible e.members) :
    (e.waitConfigIdle c term).Planned := by
  unfold Engine.waitConfigIdle
  split
  · split
    · exact .of_none rfl
    · exact planned_changePhase h
  · rename_i hidle
    have hidle : e.Idle := Nat.le_of_not_lt hidle
    unfold Engine.changeIdle
    split
    · rename_i m hm
      obtain ⟨d, hd, -⟩ := startReplicator_eq (e.addLearner m) m.nodeId
      rw [hd]
      exact planned_catchUpLearner hm _ (h.imp id fun h => ⟨h.1, h.2, hidle⟩)
    · rename_i nodeId hm
      refine planned_changePhase (h.imp id fun h => ⟨h.1, h.2, hidle, ?_⟩)
      rw [hm]
      rfl

/-- A call is let through for a change that can be made. -/
theorem possible_of_not_refused (h : e.changeRefused change = none) : change.Possible e.members := by
  cases change with
  | add m =>
      unfold Engine.changeRefused at h
      dsimp only at h
      split at h
      · split at h
        · cases h
        · cases h
      · rename_i hnone
        exact hnone
  | remove nodeId =>
      unfold Engine.changeRefused at h
      dsimp only at h
      split at h
      · cases h
      · rename_i hin
        have hin : e.members.contains nodeId = true := Decidable.not_not.mp hin
        exact hin

theorem planned_changeMembership (h : e.Planned) (deadline : Nat) :
    (e.step (.act (.changeMembership change deadline))).Planned := by
  refine (wp_after (P := Engine.Planned)).mp ?_
  simp only [NodeEvent.body, Action.body, KvCache.changeMembership, wp_modify]
  split
  · exact h
  · split
    · exact .of_none rfl
    · rename_i hleads
      split
      · exact .of_none rfl
      · rename_i hlet
        refine planned_waitConfigIdle _ (Or.inr ⟨?_, possible_of_not_refused hlet⟩)
        exact leads_iff.mpr ⟨rfl, (requireLeader_eq_none hleads).2⟩

/-- Still leading the term it led, or not any more. -/
theorem leads_or_lost_step (hr : ev ≠ .act .restart) (h : Lost t e ∨ Leads t e) :
    Lost t (e.step ev) ∨ Leads t (e.step ev) :=
  ((section_step hr).office (P := fun _ => True) (h.imp id fun h => ⟨h, trivial⟩)
    fun _ _ _ _ _ _ _ => trivial).imp id And.left

/-- A call that runs on: only from its early phases something is planned. -/
theorem planned_wakeChange (h : e.Planned) : (e.step (.act .wakeChange)).Planned := by
  have hoffice : ∀ c, e.configChange = some c → Lost c.since (e.step (.act .wakeChange)) ∨
      Leads c.since (e.step (.act .wakeChange)) := fun c hc =>
    leads_or_lost_step (fun h => by cases h) ((h c hc).imp id And.left)
  by_cases hprop : ∃ c members, e.configChange = some c ∧ c.phase = .propose members
  · obtain ⟨c, members, hc, hp⟩ := hprop
    have hstep := hoffice c hc
    have hlater : ∀ (u : Engine) (phase : ConfigPhase),
        e.step (.act .wakeChange) = u.changePhase c phase →
        (∀ y : Engine, phase.Plans y c.change) → (e.step (.act .wakeChange)).Planned := by
      intro u phase hs hplans
      rw [hs] at hstep ⊢
      exact planned_changePhase (hstep.imp id fun hl => ⟨hl, hplans u⟩)
    rcases wakeChange_propose hc hp with ⟨timeout, -, hs⟩ | ⟨error, hs | ⟨-, hs⟩⟩
    · exact hlater _ _ hs fun _ => trivial
    · exact hlater _ _ hs fun _ => trivial
    · exact hlater _ _ hs fun _ => trivial
  · refine (wp_after (P := Engine.Planned)).mp ?_
    simp only [NodeEvent.body, Action.body, KvCache.wakeChange, wp_bind, wp_get]
    split
    · exact h
    · rename_i c hc
      have hplan := h c hc
      split
      · rename_i term hp
        rw [hp] at hplan
        exact planned_waitConfigIdle _ hplan
      · rename_i term hp
        rw [hp] at hplan
        split
        · rename_i hm
          exact planned_catchUpLearner hm _ hplan
        · exact h
      · rename_i members hp
        exact absurd ⟨c, members, hc, hp⟩ hprop
      · have hgo : ∀ phase : ConfigPhase, phase.Plans e c.change → (e.changePhase c phase).Planned :=
          fun phase hp => planned_changePhase (hplan.imp id fun hl => ⟨hl.1, hp⟩)
        split
        · split
          · exact h
          · exact hgo _ trivial
          · exact hgo _ trivial
        · exact h
      · exact .of_none rfl
      · exact h
      · exact h

theorem planned_step (hev : ev.Consecutive) (hf : e.Faultless) (hk : Kept e.ledger) (hn : e.Noted)
    (hown : e.InstallsOwn ev) (h : e.Planned) : (e.step ev).Planned := by
  by_cases hr : ev = .act .restart
  · subst hr
    exact .of_none (congrArg Desk.configChange (desk_construct e))
  · obtain ⟨-, hc⟩ := grown_step (e := e) hr
    by_cases hch : ev.Changing
    · rcases hch with rfl | ⟨change, deadline, rfl⟩
      · exact planned_wakeChange h
      · exact planned_changeMembership h _
    · have hw : ev ≠ .act .wakeChange := fun hw => hch (Or.inl hw)
      have hcalls : (e.step ev).configChange = e.configChange :=
        congrArg (·.1) (hc.resolve_left hch)
      intro c hc
      rcases h c (hcalls ▸ hc) with hlost | ⟨hl, hplans⟩
      · exact Or.inl ((section_step hr).lost hlost)
      · refine (seat_step hr hw hev hf hk hn hown hl).imp id fun hs => ⟨hs.1, ?_⟩
        exact hplans.keepsSeat hs.2 (onward_step hr).1

end Planned

/-! ## The no-op of the term -/

/-- The leader of `t` appended the no-op of its term at index `k`; it is still
there, or has been folded away. -/
def OwnNoop (past : List (Engine × NodeEvent)) (t k : Nat) (n : RaftNode) : Prop :=
  ∃ s ∈ past, Leads t (s.1.step s.2) ∧ ∃ x, (s.1.step s.2).node.entryAt k = some x ∧ x.term = t ∧
    x.command = .noop ∧ (n.snapshotIndex < k → n.entryAt k = some x)

section OwnNoop

variable {past : List (Engine × NodeEvent)} {e y : Engine} {ev : NodeEvent} {t k : Nat}
  {n m : RaftNode}

theorem OwnNoop.keeps (h : OwnNoop past t k n) (hk : n.Keeps m) : OwnNoop past t k m := by
  obtain ⟨s, hs, hl, x, hx, ht, hc, hin⟩ := h
  exact ⟨s, hs, hl, x, hx, ht, hc, fun hlt =>
    hk.entry k x hlt (hin (Nat.lt_of_le_of_lt hk.snapshot_le hlt))⟩

theorem OwnNoop.concat (h : OwnNoop past t k n) {s : Engine × NodeEvent} :
    OwnNoop (past ++ [s]) t k n := by
  obtain ⟨s', hs, h⟩ := h
  exact ⟨s', List.mem_append_left _ hs, h⟩

/-- A membership call leaves the seat alone, apart from the CONFIG entry it
proposes. -/
theorem seat_wakeChange :
    e.KeepsSeat (e.step (.act .wakeChange)) ∨
      ∃ c members, e.configChange = some c ∧ c.phase = .propose members ∧
        (e.step (.act .wakeChange)).node.log =
          e.node.log ++ [e.newEntry (configCommand members) "" ""] ∧
        (e.step (.act .wakeChange)).node.snapshotIndex = e.node.snapshotIndex ∧
        (e.step (.act .wakeChange)).termStartIndex = e.termStartIndex := by
  have hself : ∀ y : Engine, y.node = e.node → y.termStartIndex = e.termStartIndex →
      y.members = e.members → y.configIndex = e.configIndex → e.KeepsSeat y := by
    intro y hn hs hm hc
    exact (KeepsSeat.refl e).of_eq hs hm hc (Nat.le_of_eq (congrArg (·.commitIndex) hn).symm)
      (congrArg (·.log) hn) (congrArg (·.snapshotIndex) hn)
  by_cases hprop : ∃ c members, e.configChange = some c ∧ c.phase = .propose members
  · obtain ⟨c, members, hc, hp⟩ := hprop
    rcases wakeChange_propose hc hp with ⟨timeout, -, hs⟩ | ⟨error, hs | ⟨-, hs⟩⟩
    · obtain ⟨d, i, ms, ls, k, heq, -⟩ :=
        proposed_eq e (e.newEntry (configCommand members) "" "") timeout
      rw [hs, heq]
      exact Or.inr ⟨c, members, hc, hp, rfl, rfl, rfl⟩
    · rw [hs]
      exact Or.inl (hself _ rfl rfl rfl rfl)
    · rw [hs]
      exact Or.inr ⟨c, members, hc, hp, rfl, rfl, rfl⟩
  · refine Or.inl ((wp_after (P := e.KeepsSeat)).mp ?_)
    have hcatch : ∀ (x : Engine) c m term, e.KeepsSeat x → e.KeepsSeat (x.catchUpLearner c m term) := by
      intro x c m term hx
      unfold Engine.catchUpLearner
      split
      · split
        · exact hx.of_eq rfl rfl rfl (Nat.le_refl _) rfl rfl
        · exact hx.of_eq rfl rfl rfl (Nat.le_refl _) rfl rfl
      · exact hx.of_eq rfl rfl rfl (Nat.le_refl _) rfl rfl
    have hidle : ∀ c term, e.KeepsSeat (e.waitConfigIdle c term) := by
      intro c term
      unfold Engine.waitConfigIdle Engine.changeIdle
      split
      · split
        · exact hself _ rfl rfl rfl rfl
        · exact hself _ rfl rfl rfl rfl
      · split
        · rename_i m _
          obtain ⟨d, hd, -⟩ := startReplicator_eq (e.addLearner m) m.nodeId
          rw [hd]
          exact hcatch _ c m _ ((KeepsSeat.refl e).of_eq rfl rfl rfl (Nat.le_refl _) rfl rfl)
        · exact hself _ rfl rfl rfl rfl
    simp only [NodeEvent.body, Action.body, KvCache.wakeChange, wp_bind, wp_get]
    split
    · exact .refl e
    · rename_i c hc
      split
      · exact hidle c _
      · split
        · exact hcatch e c _ _ (.refl e)
        · exact .refl e
      · rename_i members hp
        exact absurd ⟨c, members, hc, hp⟩ hprop
      · split
        · split
          · exact .refl e
          · exact hself _ rfl rfl rfl rfl
          · exact hself _ rfl rfl rfl rfl
        · exact .refl e
      · simp only [wp_modify]
        unfold Engine.forgetLearner
        split
        · split
          · exact hself _ rfl rfl rfl rfl
          · exact hself _ rfl rfl rfl rfl
        · exact hself _ rfl rfl rfl rfl
      · exact .refl e
      · exact .refl e

theorem not_restart_of_leads (hl : Leads t (e.step ev)) : ev ≠ .act .restart := by
  rintro rfl
  cases (sight_construct e).1.symm.trans (leads_iff.mp hl).2

/-- A leader that goes on leading has only appended, and folded a prefix away. -/
theorem keeps_step (hev : ev.Consecutive) (hf : e.Faultless) (hk : Kept e.ledger) (hn : e.Noted)
    (hown : e.InstallsOwn ev) (hold : Leads t e) (hl : Leads t (e.step ev)) :
    (e.step ev).termStartIndex = e.termStartIndex ∧ e.node.Keeps (e.step ev).node := by
  by_cases hw : ev = .act .wakeChange
  · subst hw
    rcases seat_wakeChange (e := e) with hs | ⟨c, members, -, -, hlog, hsnap, hstart⟩
    · exact ⟨hs.termStartIndex, hs.keeps⟩
    · exact ⟨hstart, keeps_append hlog hsnap⟩
  · rcases seat_step (not_restart_of_leads hl) hw hev hf hk hn hown hold with hlost | ⟨-, hs⟩
    · exact absurd hl hlost.not_leads
    · exact ⟨hs.termStartIndex, hs.keeps⟩

/-- Whoever leads has its no-op where its term starts. -/
theorem ownNoop_step (hev : ev.Consecutive) (hf : e.Faultless) (hk : Kept e.ledger) (hn : e.Noted)
    (hown : e.InstallsOwn ev) (h : Leads t e → OwnNoop past t e.termStartIndex e.node)
    (hl : Leads t (e.step ev)) :
    OwnNoop (past ++ [(e, ev)]) t (e.step ev).termStartIndex (e.step ev).node := by
  rcases noop_of_leads (not_restart_of_leads hl) hf hl with hold | ⟨-, x, hx, ht, hc⟩
  · obtain ⟨hstart, hkeeps⟩ := keeps_step hev hf hk hn hown hold hl
    rw [hstart]
    exact (h hold).concat.keeps hkeeps
  · exact ⟨(e, ev), List.mem_append_right _ (List.mem_singleton_self _), hl, x, hx,
      ht.trans (leads_iff.mp hl).1, hc, fun _ => hx⟩

end OwnNoop

/-! ## Every course of a node -/

/-- A message brings consecutive entries, and a snapshot that a leader finishes
installing is one of its own log. -/
def Engine.Regular (e : Engine) (ev : NodeEvent) : Prop := ev.Consecutive ∧ e.InstallsOwn ev

/-- A call that proposes as leader proposes in the term in which it began. -/
def Engine.ProposesInOffice (e : Engine) (ev : NodeEvent) : Prop :=
  ∀ c members, ev = .act .wakeChange → e.configChange = some c → c.phase = .propose members →
    e.node.state = .leader → e.node.currentTerm = c.since

/-- A leader of `t` that appends a CONFIG entry with the membership `new`: it
differs by one member from the one in its log, and the newest CONFIG entry and
an entry of the leader's own term are committed. -/
def ChangesOne (past : List (Engine × NodeEvent)) (t : Nat) (e : Engine) (new : List Member) : Prop :=
  (membersOf (e.node.latestConfig.2.getD [])).OneApart (membersOf new) ∧
    e.node.latestConfig.1 ≤ e.node.commitIndex ∧
    ∃ k, OwnNoop past t k e.node ∧ k ≤ e.node.commitIndex

/-- What holds of a node all the way. -/
structure Governs (past : List (Engine × NodeEvent)) (e : Engine) : Prop where
  faultless : e.Faultless
  kept : Kept e.ledger
  noted : e.Noted
  planned : e.Planned
  noop : ∀ t, Leads t e → OwnNoop past t e.termStartIndex e.node

section Courses

variable {past : List (Engine × NodeEvent)} {e : Engine} {ev : NodeEvent} {t : Nat}

theorem Governs.step (h : Governs past e) (hev : e.Regular ev) :
    Governs (past ++ [(e, ev)]) (e.step ev) where
  faultless := h.faultless.step
  kept := kept_step hev.1 (fun k _ => (succeeds_of_nil (h.faultless k)).1) h.kept
  noted := noted_step hev.1 h.faultless h.kept h.noted
  planned := planned_step hev.1 h.faultless h.kept h.noted hev.2 h.planned
  noop t hl := ownNoop_step hev.1 h.faultless h.kept h.noted hev.2 (h.noop t) hl

theorem governs_course {settings : Settings} (h : (boot settings fun _ => []).Course past e)
    (hev : ∀ s ∈ past, s.1.Regular s.2) : Governs past e := by
  induction h with
  | start =>
      refine ⟨fun k => @faults_run settings (fun _ => []) k rfl [],
        (@kept_boot settings (fun _ => []) rfl).1, noted_construct fun _ => rfl,
        .of_none (congrArg Desk.configChange (desk_construct { settings := settings }) :),
        fun t hl => ?_⟩
      cases (sight_construct { settings := settings }).1.symm.trans (leads_iff.mp hl).2
  | step h ev ih =>
      rename_i past e
      exact (ih fun s hs => hev s (List.mem_append_left _ hs)).step
        (hev (e, ev) (List.mem_append_right _ (List.mem_singleton_self _)))
  | flush h ih =>
      have hg := ih hev
      exact ⟨hg.faultless, hg.kept, hg.noted, hg.planned, hg.noop⟩

/-- One step: who appends a CONFIG entry is a call in office. -/
theorem Governs.changesOne (h : Governs past e) (hev : e.Regular ev) (ho : e.ProposesInOffice ev)
    (hl : Leads t e) (hl' : Leads t (e.step ev)) {x : LogEntry} (hx : x ∈ (e.step ev).node.log)
    (hnew : x ∉ e.node.log) {new : List Member} (hp : parseConfig x.command = some new) :
    ChangesOne past t e new := by
  have hconf : (parseConfig x.command).isSome := by
    rw [hp]
    rfl
  have hr := not_restart_of_leads hl'
  by_cases hw : ev = .act .wakeChange
  · subst hw
    rcases seat_wakeChange (e := e) with hs | ⟨c, members, hc, hphase, hlog, -, -⟩
    · exact absurd (hs.log x hx hconf) hnew
    · rw [hlog] at hx
      obtain rfl := List.mem_singleton.mp ((List.mem_append.mp hx).resolve_left hnew)
      obtain rfl := Option.some.inj hp
      obtain ⟨hterm, hstate⟩ := leads_iff.mp hl
      have hsince : c.since = t := (ho c members rfl hc hphase hstate).symm.trans hterm
      rcases h.planned c hc with hlost | ⟨-, hplans⟩
      · rw [hsince] at hlost
        exact absurd hl hlost.not_leads
      · rw [hphase] at hplans
        obtain ⟨hpossible, hidle, rfl⟩ := hplans
        have hcur : e.Current e.members := h.kept.members
        unfold Engine.Idle at hidle
        refine ⟨?_, ?_, e.termStartIndex, h.noop t hl, by omega⟩
        · obtain ⟨k, hk, hrest⟩ := hcur.filed.oneApart_result hpossible
          have hsame := Dict.sameItems_iff.mp hcur
          refine ⟨k, ?_, fun j hj => ?_⟩
          · rw [hsame k]
            exact hk
          · rw [hsame j]
            exact hrest j hj
        · have := h.noted
          unfold Engine.Noted at this
          omega
  · rcases seat_step hr hw hev.1 h.faultless h.kept h.noted hev.2 hl with hlost | ⟨-, hs⟩
    · exact absurd hl' hlost.not_leads
    · exact absurd (hs.log x hx hconf) hnew

theorem ChangesOne.concat {new : List Member} (h : ChangesOne past t e new)
    {s : Engine × NodeEvent} : ChangesOne (past ++ [s]) t e new := by
  obtain ⟨hone, hconfig, k, hk, hle⟩ := h
  exact ⟨hone, hconfig, k, hk.concat, hle⟩

/-- As long as every call proposes in the term in which it began, each CONFIG
entry that a leader appends changes one member, and the one before it is
committed, as is an entry of the leader's term. -/
theorem one_member_at_a_time {settings : Settings} (h : (boot settings fun _ => []).Course past e)
    (hev : ∀ s ∈ past, s.1.Regular s.2) (ho : ∀ s ∈ past, s.1.ProposesInOffice s.2) :
    ∀ s ∈ past, ∀ t, Leads t s.1 → Leads t (s.1.step s.2) → ∀ x ∈ (s.1.step s.2).node.log,
      x ∉ s.1.node.log → ∀ new, parseConfig x.command = some new → ChangesOne past t s.1 new := by
  induction h with
  | start => exact fun s hs => absurd hs List.not_mem_nil
  | step h ev ih =>
      rename_i past e
      intro s hs t hl hl' x hx hnew new hp
      have hlast : (e, ev) ∈ past ++ [(e, ev)] := List.mem_append_right _ (List.mem_singleton_self _)
      have hev' : ∀ s ∈ past, s.1.Regular s.2 := fun s hs => hev s (List.mem_append_left _ hs)
      rcases List.mem_append.mp hs with hs | hs
      · exact (ih hev' (fun s hs => ho s (List.mem_append_left _ hs)) s hs t hl hl' x hx hnew new
          hp).concat
      · obtain rfl := List.mem_singleton.mp hs
        exact ((governs_course h hev').changesOne (hev _ hlast) (ho _ hlast) hl hl' hx hnew hp).concat
  | flush h ih => exact ih hev ho

/-- Every leader has the no-op of its term in its log, where its term starts, or
has folded it away. -/
theorem leader_has_its_noop {settings : Settings} (h : (boot settings fun _ => []).Course past e)
    (hev : ∀ s ∈ past, s.1.Regular s.2) (hl : Leads t e) :
    OwnNoop past t e.termStartIndex e.node :=
  (governs_course h hev).noop t hl

/-- As long as a leader leads, its log only grows, apart from what compaction
folds away, and its term starts where it started. -/
theorem leader_only_appends {settings : Settings} (h : (boot settings fun _ => []).Course past e)
    (hev : ∀ s ∈ past, s.1.Regular s.2) :
    ∀ s ∈ past, ∀ t, Leads t s.1 → Leads t (s.1.step s.2) →
      (s.1.step s.2).termStartIndex = s.1.termStartIndex ∧ s.1.node.Keeps (s.1.step s.2).node := by
  induction h with
  | start => exact fun s hs => absurd hs List.not_mem_nil
  | step h ev ih =>
      rename_i past e
      intro s hs t hl hl'
      have hev' : ∀ s ∈ past, s.1.Regular s.2 := fun s hs => hev s (List.mem_append_left _ hs)
      rcases List.mem_append.mp hs with hs | hs
      · exact ih hev' s hs t hl hl'
      · obtain rfl := List.mem_singleton.mp hs
        have hg := governs_course h hev'
        have hlast : e.Regular ev := hev (e, ev) (List.mem_append_right _ (List.mem_singleton_self _))
        exact keeps_step hlast.1 hg.faultless hg.kept hg.noted hlast.2 hl hl'
  | flush h ih => exact ih hev

end Courses

/-! ### A call that outlives its leader's term -/

section Trail

variable {e : Engine} {s : Engine × NodeEvent}

/-- What ran in a trail, and in which state. -/
theorem mem_trail {evs : List NodeEvent} :
    s ∈ e.trail evs ↔ ∃ pre post, evs = pre ++ s.2 :: post ∧ s.1 = e.run pre := by
  induction evs generalizing e with
  | nil => simp [Engine.trail]
  | cons ev evs ih =>
      unfold Engine.trail
      rw [List.mem_cons, ih]
      constructor
      · rintro (rfl | ⟨pre, post, rfl, hs⟩)
        · exact ⟨[], evs, rfl, rfl⟩
        · exact ⟨ev :: pre, post, rfl, hs⟩
      · rintro ⟨pre, post, hsplit, hs⟩
        rcases pre with _ | ⟨a, pre⟩
        · cases hsplit
          exact Or.inl (Prod.ext hs rfl)
        · cases hsplit
          exact Or.inr ⟨pre, post, rfl, hs⟩

end Trail

/-- One of three nodes. -/
def memberOfThree : Settings where
  nodeId := "n1"
  raftAddress := "a1"
  bootstrap := [⟨"n1", "a1", ""⟩, ⟨"n2", "a2", ""⟩, ⟨"n3", "a3", ""⟩]

/-- The second node, which leads term `t`, hands the leadership over. -/
def ordered (t : Nat) : NodeEvent := .receive (.call
  { src := "n2", epoch := 1, address := "a1"
    call := .timeoutNow { term := t, leaderId := "n2" } 0 })

/-- A vote for term `t`. -/
def granted (t : Nat) (peer : NodeId) : NodeEvent := .receive (.reply
  { src := "n1", epoch := 1, address := "a2"
    call := .requestVote peer { term := t, candidateId := "n1", lastLogIndex := 0, lastLogTerm := 0
                                transfer := true } }
  (.requestVote { term := t, voteGranted := true }))

def firstEntries : AppendEntriesRequest where
  term := 1
  leaderId := "n1"
  prevLogIndex := 0
  prevLogTerm := some 0
  entries := [{ term := 1, index := 1, command := .noop, username := "" }]
  leaderCommit := 0

/-- The second node has the no-op. -/
def noopStored : NodeEvent := .receive (.reply
  { src := "n1", epoch := 1, address := "a2", call := .appendEntries "n2" firstEntries 1 }
  (.appendEntries { term := 1, success := true, matchIndex := 1 }))

/-- The leader of term 1 has computed a membership without `n3`. -/
def planRemoval : List NodeEvent :=
  [.act .start, ordered 0, granted 1 "n2", noopStored,
    .act (.changeMembership (.remove "n3") 30000)]

/-- The leader of term 2 has added a node. -/
def foreignRequest : AppendEntriesRequest where
  term := 2
  leaderId := "n2"
  prevLogIndex := 1
  prevLogTerm := some 1
  entries :=
    [{ term := 2, index := 2, command := .noop, username := "" },
     { term := 2, index := 3, username := ""
       command := configCommand (memberOfThree.bootstrap ++ [⟨"n4", "a4", ""⟩]) }]
  leaderCommit := 1

def foreignConfig : NodeEvent := .receive (.call
  { src := "n2", epoch := 1, address := "a1", call := .appendEntries "n1" foreignRequest 1 })

/-- The first node leads again, in term 3, and the call of term 1 goes on. -/
def reelected : List NodeEvent :=
  planRemoval ++ [foreignConfig, ordered 2, granted 3 "n2", granted 3 "n3"]

theorem consecutive_reelected : ∀ ev ∈ reelected ++ [.act .wakeChange], ev.Consecutive := by
  intro ev hev
  simp only [reelected, planRemoval, List.cons_append, List.nil_append, List.mem_cons, List.not_mem_nil,
    or_false] at hev
  rcases hev with rfl | rfl | rfl | rfl | rfl | rfl | rfl | rfl | rfl | rfl
  · exact consecutive_act _
  · exact fun req ⟨_, _, _, h, hc⟩ => by cases h; cases hc
  · exact fun req ⟨_, _, _, h, hc⟩ => by cases h
  · exact fun req ⟨_, _, _, h, hc⟩ => by cases h
  · exact consecutive_act _
  · refine consecutive_call rfl fun j x hx => ?_
    rcases j with _ | _ | j
    · cases hx
      rfl
    · cases hx
      rfl
    · cases hx
  · exact fun req ⟨_, _, _, h, hc⟩ => by cases h; cases hc
  · exact fun req ⟨_, _, _, h, hc⟩ => by cases h
  · exact fun req ⟨_, _, _, h, hc⟩ => by cases h
  · exact consecutive_act _

theorem regular_reelected {e : Engine} {ev : NodeEvent} (h : ev ∈ reelected ++ [.act .wakeChange]) :
    e.Regular ev := by
  refine ⟨consecutive_reelected ev h, fun y hev => ?_⟩
  subst hev
  simp [reelected, planRemoval, ordered, granted, noopStored, foreignConfig] at h

/-- The membership without `n3` was computed in term 1; in term 3 it is proposed
to a cluster of four, whose no-op is not committed. -/
theorem stale_membership_is_proposed :
    ¬ ∀ (settings : Settings) (past : List (Engine × NodeEvent)) (e : Engine),
      (boot settings fun _ => []).Course past e → (∀ s ∈ past, s.1.Regular s.2) →
        ∀ s ∈ past, ∀ t, Leads t s.1 → Leads t (s.1.step s.2) → ∀ x ∈ (s.1.step s.2).node.log,
          x ∉ s.1.node.log → ∀ new, parseConfig x.command = some new → ChangesOne past t s.1 new := by
  intro hall
  have hchanges := hall memberOfThree _ _ (Course.start.run (reelected ++ [.act .wakeChange]))
    (fun s hs => by
      obtain ⟨pre, post, hsplit, -⟩ := mem_trail.mp hs
      exact regular_reelected (hsplit ▸ List.mem_append_right _ List.mem_cons_self))
    ((boot memberOfThree fun _ => []).run reelected, .act .wakeChange)
    (mem_trail.mpr ⟨reelected, [], rfl, rfl⟩) 3 rfl rfl
    { term := 3, index := 5, command := .config [⟨"n1", "a1", ""⟩, ⟨"n2", "a2", ""⟩], username := "" }
    (by decide +kernel) (by decide +kernel) _ rfl
  obtain ⟨k, -, hrest⟩ := hchanges.1
  by_cases hk : k = "n3"
  · exact absurd (hrest "n4" (by rw [hk]; decide)) (by decide +kernel)
  · exact absurd (hrest "n3" (Ne.symm hk)) (by decide +kernel)

theorem regular_removal :
    ∀ s ∈ (boot memberOfThree fun _ => []).trail (planRemoval ++ [.act .wakeChange]),
      s.1.Regular s.2 := by
  intro s hs
  obtain ⟨pre, post, hsplit, -⟩ := mem_trail.mp hs
  have hin : s.2 ∈ planRemoval ++ [.act .wakeChange] :=
    hsplit ▸ List.mem_append_right _ List.mem_cons_self
  refine regular_reelected ?_
  rcases List.mem_append.mp hin with hin | hin
  · exact List.mem_append_left _ (List.mem_append_left _ hin)
  · exact List.mem_append_right _ hin

/-- In office the same call removes one member. -/
theorem one_member_at_a_time_removal :
    ChangesOne ((boot memberOfThree fun _ => []).trail (planRemoval ++ [.act .wakeChange])) 1
      ((boot memberOfThree fun _ => []).run planRemoval) [⟨"n1", "a1", ""⟩, ⟨"n2", "a2", ""⟩] := by
  refine @one_member_at_a_time ((boot memberOfThree fun _ => []).trail (planRemoval ++ [.act .wakeChange])) _
    memberOfThree (Course.start.run _) regular_removal (fun s hs c members hw hc hp hl => ?_)
    ((boot memberOfThree fun _ => []).run planRemoval, .act .wakeChange)
    (mem_trail.mpr ⟨planRemoval, [], rfl, rfl⟩) 1 rfl rfl
    { term := 1, index := 2, command := .config [⟨"n1", "a1", ""⟩, ⟨"n2", "a2", ""⟩], username := "" }
    (by decide +kernel) (by decide +kernel) _ rfl
  have hall : ∀ s ∈ (boot memberOfThree fun _ => []).trail (planRemoval ++ [.act .wakeChange]),
      ∀ c ∈ s.1.configChange, c.since = s.1.node.currentTerm := by
    decide +kernel
  exact (hall s hs c hc).symm

theorem leader_has_its_noop_removal :
    OwnNoop ((boot memberOfThree fun _ => []).trail (planRemoval ++ [.act .wakeChange])) 1
      ((boot memberOfThree fun _ => []).run (planRemoval ++ [.act .wakeChange])).termStartIndex
      ((boot memberOfThree fun _ => []).run (planRemoval ++ [.act .wakeChange])).node :=
  leader_has_its_noop (Course.start.run (planRemoval ++ [.act .wakeChange])) regular_removal
    (show Leads 1 _ from rfl)

theorem leader_only_appends_removal :
    (((boot memberOfThree fun _ => []).run planRemoval).step (.act .wakeChange)).termStartIndex
        = ((boot memberOfThree fun _ => []).run planRemoval).termStartIndex ∧
      ((boot memberOfThree fun _ => []).run planRemoval).node.Keeps
        (((boot memberOfThree fun _ => []).run planRemoval).step (.act .wakeChange)).node :=
  @leader_only_appends ((boot memberOfThree fun _ => []).trail (planRemoval ++ [.act .wakeChange])) _
    memberOfThree (Course.start.run _) regular_removal
    ((boot memberOfThree fun _ => []).run planRemoval, .act .wakeChange)
    (mem_trail.mpr ⟨planRemoval, [], rfl, rfl⟩) 1 rfl rfl

end KvCache

import KvCache.Office

/-!
# Promotion after catching up

`add_member` makes the new node a learner and proposes the membership that
contains it once its match index is within one batch of the leader's log. A
match index is a default as long as the node has not answered, and may stem
from an earlier membership; the term may end between the test and the
proposal. In a run whose steps are careful in these respects
(`Engine.Careful`) every node that is promoted has acknowledged, since it
became a learner and in the leader's term, an index within one batch of the
log (`promoted_after_catching_up`).
-/

namespace KvCache

open StateWp Engine

/-- The member is a learner, the membership with it not yet proposed. -/
def ConfigPhase.learning : ConfigPhase → Bool
  | .catchUp _ | .propose _ => true
  | _ => false

def Change.added : Change → Option Member
  | .add m => some m
  | .remove _ => none

namespace Engine

/-- The member that `add_member` is catching up. -/
def learning (e : Engine) : Option Member :=
  match e.configChange with
  | some c => if c.phase.learning then c.change.added else none
  | none => none

/-- The step makes `m` a learner. -/
def Teaches (e : Engine) (ev : NodeEvent) (m : Member) : Prop :=
  (e.step ev).learning = some m ∧ e.learning ≠ some m

/-- The step appends the CONFIG entry that makes `m` a voter. -/
def Promotes (e : Engine) (ev : NodeEvent) (m : Member) : Prop :=
  ev = .act .wakeChange ∧ e.learning = some m ∧ (e.step ev).node.log ≠ e.node.log

/-- With this event `peer` acknowledges the leader's log up to `index`: it
answers a request of the leader's term, or the last chunk of a snapshot sent
in that term. -/
def Acknowledges (e : Engine) (ev : NodeEvent) (peer : NodeId) (index : Nat) : Prop :=
  e.node.state = .leader ∧
    ((∃ request seq response,
        ev.Answers e (.appendEntries peer request seq) (.appendEntries response) ∧
        request.term = e.node.currentTerm ∧ response.success = true ∧
        index = max (request.prevLogIndex + request.entries.length) response.matchIndex) ∨
      ∃ request transfer response,
        ev.Answers e (.installSnapshot request transfer) (.installSnapshot response) ∧
        transfer.peer = peer ∧ transfer.term = e.node.currentTerm ∧
        response.success = true ∧ request.done = true ∧ index = transfer.index)

/-- The learner has something to catch up, for its leader to see. -/
def Behind (e : Engine) (m : Member) : Prop :=
  e.node.state = .leader ∧
    e.node.matchIndex.getD m.nodeId 0 + maxEntriesPerRpc < e.node.lastLogIndex ∧
    ∀ transfer ∈ e.transfers, transfer.peer = m.nodeId → transfer.term ≠ e.node.currentTerm

/-- The term in which the last learner was made one. -/
def taughtIn (e : Engine) (ev : NodeEvent) (taught : Option Nat) : Option Nat :=
  if (e.step ev).learning ≠ none ∧ (e.step ev).learning ≠ e.learning then
    some e.node.currentTerm
  else taught

/-- What a step has to do for a promotion to come after catching up: a member
is made a learner while it is behind; the leader's log is not replaced while
there is a learner; the membership is proposed in the term in which the
learner became one, while it is still within one batch of the log. -/
def StepCareful (e : Engine) (ev : NodeEvent) (taught : Option Nat) : Prop :=
  (∀ m, e.Teaches ev m → e.Behind m) ∧
    (e.learning ≠ none → e.LogSafe ev) ∧
    ∀ m, e.Promotes ev m → taught = some e.node.currentTerm ∧
      e.node.lastLogIndex ≤ e.node.matchIndex.getD m.nodeId 0 + maxEntriesPerRpc

/-- Every step of the run is careful. -/
def Careful (e : Engine) (taught : Option Nat) : List NodeEvent → Prop
  | [] => True
  | ev :: evs => e.StepCareful ev taught ∧ (e.step ev).Careful (e.taughtIn ev taught) evs

/-- Since it became a learner of the present leader, in its term, `m` has
acknowledged an index within one batch of the log. -/
def CaughtUp (e : Engine) (evs : List NodeEvent) (m : Member) : Prop :=
  ∃ before teach between ack after index,
    evs = before ++ teach :: between ++ ack :: after ∧
    (e.run before).Teaches teach m ∧
    (e.run before).role = (e.run evs).role ∧
    (e.run (before ++ teach :: between)).role = (e.run evs).role ∧
    (e.run (before ++ teach :: between)).Acknowledges ack m.nodeId index ∧
    (e.run evs).node.lastLogIndex ≤ index + maxEntriesPerRpc

theorem run_append (e : Engine) (evs evs' : List NodeEvent) :
    e.run (evs ++ evs') = (e.run evs).run evs' := List.foldl_append

end Engine

/-! ## What a leader knows of a follower -/

section Moves

variable {ev : NodeEvent} {b : Bool} {x y : Engine} {t : Nat} {p : NodeId} {i : Nat}

/-- A finished snapshot of this term whose index is not yet noted. -/
def Engine.Transferred (e : Engine) (peer : NodeId) (index : Nat) : Prop :=
  ∃ transfer ∈ e.transfers, transfer.peer = peer ∧ transfer.term = e.node.currentTerm ∧
    transfer.index = index

theorem Engine.Acknowledges.congr {e e' : Engine} (h : e.Acknowledges ev p i)
    (hr : e'.role = e.role) (he : e'.epoch = e.epoch) : e'.Acknowledges ev p i := by
  have ht : e'.node.currentTerm = e.node.currentTerm := congrArg Prod.fst hr
  have hs : e'.node.state = e.node.state := congrArg Prod.snd hr
  unfold Engine.Acknowledges NodeEvent.Answers at h ⊢
  rw [ht, hs, he]
  exact h

theorem getD_noteMatch (e : Engine) (q p : NodeId) (k : Nat) :
    (e.noteMatch q k).node.matchIndex.getD p 0 ≤ e.node.matchIndex.getD p 0 ∨
      q = p ∧ (e.noteMatch q k).node.matchIndex.getD p 0 ≤ max (e.node.matchIndex.getD p 0) k := by
  unfold Engine.noteMatch Dict.getD
  dsimp only
  rw [Dict.get?_set]
  split
  · rename_i h
    subst h
    exact Or.inr ⟨rfl, Nat.le_refl _⟩
  · exact Or.inl (Nat.le_refl _)

/-- What a leader knows of a follower grows by acknowledgements only. -/
theorem Move.matchIndex_le (hm : Move ev b x y) (hx : Leads t x) (p : NodeId) :
    y.node.matchIndex.getD p 0 ≤ x.node.matchIndex.getD p 0 ∨
      ∃ i, (x.Acknowledges ev p i ∨ x.Transferred p i) ∧
        y.node.matchIndex.getD p 0 ≤ max (x.node.matchIndex.getD p 0) i := by
  have hforget : ∀ d : Tracking, x.Forgets d →
      d.matchIndex.getD p 0 ≤ x.node.matchIndex.getD p 0 := fun d hd => by
    rcases hd p with h | h
    · exact Nat.le_of_eq h
    · rw [h]
      exact Nat.zero_le _
  cases hm with
  | idle h => exact Or.inl (Nat.le_of_eq (congrArg (·.node.matchIndex.getD p 0) h : _ = _))
  | adoptTerm =>
      obtain ⟨l, ls, b, h⟩ := stepDown_eq (x.enterTerm _).saveVote
      rw [h]
      exact Or.inl (Nat.le_refl _)
  | stepDown =>
      obtain ⟨l, ls, b, h⟩ := stepDown_eq x
      rw [h]
      exact Or.inl (Nat.le_refl _)
  | noop =>
      obtain ⟨d, k, ms, ls, h, hd⟩ := appended_eq x [x.newEntry .noop "" ""]
      rw [h]
      exact Or.inl (hforget d hd)
  | propose timeout =>
      obtain ⟨d, k, ms, ls, c, h, hd, -⟩ := proposed_eq x _ timeout
      rw [h]
      exact Or.inl (hforget d hd)
  | receive ha hl => exact absurd hx (ha.not_leads hl.state)
  | truncate ha => exact absurd hx (ha.not_leads rfl)
  | advanceCommit =>
      obtain ⟨k, h, -⟩ := advanceCommitIndex_eq x
      rw [h]
      exact Or.inl (Nat.le_refl _)
  | followCommit =>
      obtain ⟨k, h, -⟩ := followCommit_eq x _ _
      rw [h]
      exact Or.inl (Nat.le_refl _)
  | startReplicator =>
      obtain ⟨d, h, hd⟩ := startReplicator_eq x _
      rw [h]
      exact Or.inl (hforget d hd)
  | @noteMatch peer request seq response ha hl ht hs =>
      rcases getD_noteMatch x peer p _ with h | ⟨rfl, h⟩
      · exact Or.inl h
      · exact Or.inr ⟨_, Or.inl ⟨hl, Or.inl ⟨request, seq, response, ha, ht.symm, hs, rfl⟩⟩, h⟩
  | @finishTransfer k transfer ha hk hl ht =>
      rcases getD_noteMatch (x.dropTransfer k) transfer.peer p transfer.index with h | ⟨rfl, h⟩
      · exact Or.inl h
      · exact Or.inr ⟨_, Or.inr ⟨transfer, List.mem_of_getElem? hk, rfl, ht.symm, rfl⟩, h⟩
  | install =>
      obtain ⟨d, ms, ls, h, hd, -⟩ := installed_eq (x.setLock .free) _
      obtain ⟨s, fs, h'⟩ := uprooted_eq (x.setLock .free) _
      rw [h, h']
      exact Or.inl (hforget d hd)
  | installFails ha hi h =>
      rcases h with ⟨rfl, -⟩ | ⟨rfl, -⟩
      · exact Or.inl (Nat.le_refl _)
      · obtain ⟨s, fs, h'⟩ := uprooted_eq (x.setLock .free) _
        rw [h']
        exact Or.inl (Nat.le_refl _)
  | _ => exact Or.inl (Nat.le_refl _)

/-- A transfer is finished by an acknowledgement. -/
theorem Move.transfers (hm : Move ev b x y) {transfer : Transfer} (ht : transfer ∈ y.transfers) :
    transfer ∈ x.transfers ∨
      transfer.term = x.node.currentTerm ∧ x.Acknowledges ev transfer.peer transfer.index := by
  have hdesk : ∀ {e : Engine}, e.desk = x.desk → transfer ∈ e.transfers → transfer ∈ x.transfers :=
    fun {e} h hmem => by
      have heq : e.transfers = x.transfers := congrArg Desk.transfers h
      exact heq ▸ hmem
  cases hm with
  | idle h => exact Or.inl ((congrArg Engine.transfers h : _ = _) ▸ ht)
  | adoptTerm => exact Or.inl (hdesk (desk_stepDown (x.enterTerm _).saveVote) ht)
  | stepDown => exact Or.inl (hdesk (desk_stepDown x) ht)
  | noop => exact Or.inl (hdesk (desk_appended x _) ht)
  | propose timeout =>
      obtain ⟨d, k, ms, ls, c, h, -⟩ := proposed_eq x _ timeout
      rw [h] at ht
      exact Or.inl ht
  | receive => exact Or.inl (hdesk (desk_appended x _) ht)
  | truncate => exact Or.inl (hdesk (desk_truncated x _) ht)
  | advanceCommit => exact Or.inl (hdesk (desk_advanceCommitIndex x) ht)
  | followCommit => exact Or.inl (hdesk (desk_followCommit x _ _) ht)
  | startReplicator => exact Or.inl (hdesk (desk_startReplicator x _) ht)
  | finishTransfer => exact Or.inl (List.mem_of_mem_eraseIdx ht)
  | dropTransfer => exact Or.inl (List.mem_of_mem_eraseIdx ht)
  | @queueTransfer request sent response ha hl hterm hs hd =>
      rcases List.mem_append.mp ht with h | h
      · exact Or.inl h
      · obtain rfl := List.mem_singleton.mp h
        exact Or.inr ⟨hterm.symm, hl, Or.inr ⟨request, sent, response, ha, rfl, hterm.symm, hs,
          hd, rfl⟩⟩
  | install =>
      obtain ⟨d, ms, ls, h, -⟩ := installed_eq (x.setLock .free) _
      obtain ⟨s, fs, h'⟩ := uprooted_eq (x.setLock .free) _
      rw [h, h'] at ht
      exact Or.inl ht
  | installFails ha hi h =>
      rcases h with ⟨rfl, -⟩ | ⟨rfl, -⟩
      · exact Or.inl ht
      · obtain ⟨s, fs, h'⟩ := uprooted_eq (x.setLock .free) _
        rw [h'] at ht
        exact Or.inl ht
  | _ => exact Or.inl ht

/-- What has happened to a learner whose leader saw `a` of its log of `L`
entries when it became one: `K` holds of what it acknowledged since. -/
structure Watched (K : Nat → Prop) (L a : Nat) (p : NodeId) (e : Engine) : Prop where
  log : L ≤ e.node.lastLogIndex
  known : e.node.matchIndex.getD p 0 ≤ a ∨ ∃ i, K i ∧ e.node.matchIndex.getD p 0 ≤ i
  transferred : ∀ i, e.Transferred p i → K i

theorem Watched.move {K : Nat → Prop} {L a : Nat} (h : Watched K L a p x) (hm : Move ev b x y)
    (hsafe : x.LogSafe ev) (hx : Leads t x) (hy : Leads t y)
    (hK : ∀ i, x.Acknowledges ev p i → K i) : Watched K L a p y where
  log := h.log.trans (hm.lastLogIndex_le hsafe hx)
  known := by
    rcases hm.matchIndex_le hx p with hle | ⟨i, hi, hle⟩
    · rcases h.known with hk | ⟨j, hj, hk⟩
      · exact Or.inl (hle.trans hk)
      · exact Or.inr ⟨j, hj, hle.trans hk⟩
    · have hi' : K i := hi.elim (hK i) (h.transferred i)
      rcases Nat.le_total (x.node.matchIndex.getD p 0) i with hmax | hmax
      · rw [Nat.max_eq_right hmax] at hle
        exact Or.inr ⟨i, hi', hle⟩
      · rw [Nat.max_eq_left hmax] at hle
        rcases h.known with hk | ⟨j, hj, hk⟩
        · exact Or.inl (hle.trans hk)
        · exact Or.inr ⟨j, hj, hle.trans hk⟩
  transferred := by
    rintro i ⟨transfer, hmem, hp, hterm, rfl⟩
    rw [(leads_iff.mp hy).1, ← (leads_iff.mp hx).1] at hterm
    rcases hm.transfers hmem with h' | ⟨-, h'⟩
    · exact h.transferred _ ⟨transfer, h', hp, hterm, rfl⟩
    · exact hK _ (hp ▸ h')

/-- The same for a whole step. -/
theorem Watched.step {K : Nat → Prop} {L a : Nat} {e : Engine} (hev : ev ≠ .act .restart)
    (hsafe : e.LogSafe ev) (h : Lost t e ∨ Leads t e ∧ Watched K L a p e)
    (hK : Leads t e → ∀ i, e.Acknowledges ev p i → K i) :
    Lost t (e.step ev) ∨ Leads t (e.step ev) ∧ Watched K L a p (e.step ev) := by
  rcases h with h | ⟨hl, h⟩
  · exact Or.inl ((section_step hev).lost h)
  · refine (office_step (P := fun u => u.epoch = e.epoch ∧ Watched K L a p u) hev hsafe
      (Or.inr ⟨hl, rfl, h⟩) fun b u v huv hu hul hvl hp => ?_).imp id fun h' => ⟨h'.1, h'.2.2⟩
    refine ⟨huv.process.2.trans hp.1, hp.2.move huv hu hul hvl fun i hi => hK hl i ?_⟩
    exact hi.congr (hl.trans hul.symm) hp.1.symm

theorem Watched.weaken {K K' : Nat → Prop} {L a : Nat} {e : Engine} (h : Watched K L a p e)
    (hK : ∀ i, K i → K' i) : Watched K' L a p e where
  log := h.log
  known := h.known.imp id fun ⟨i, hi, hle⟩ => ⟨i, hK i hi, hle⟩
  transferred := fun i hi => hK i (h.transferred i hi)

/-! ## Membership calls -/

/-- Membership calls go on in their own events only. -/
theorem Move.configChange (hm : Move ev b x y) (hev : ¬ ev.Changing) :
    y.configChange = x.configChange := by
  have hdesk : ∀ {e : Engine}, e.desk = x.desk → e.configChange = x.configChange :=
    fun h => congrArg Desk.configChange h
  cases hm with
  | idle h => exact (congrArg Engine.configChange h : _ = _)
  | adoptTerm => exact hdesk (desk_stepDown (x.enterTerm _).saveVote)
  | stepDown => exact hdesk (desk_stepDown x)
  | noop => exact hdesk (desk_appended x _)
  | propose timeout =>
      obtain ⟨d, k, ms, ls, c, h, -⟩ := proposed_eq x _ timeout
      rw [h]
      rfl
  | receive => exact hdesk (desk_appended x _)
  | truncate => exact hdesk (desk_truncated x _)
  | advanceCommit => exact hdesk (desk_advanceCommitIndex x)
  | followCommit => exact hdesk (desk_followCommit x _ _)
  | startReplicator => exact hdesk (desk_startReplicator x _)
  | install =>
      obtain ⟨d, ms, ls, h, -⟩ := installed_eq (x.setLock .free) _
      obtain ⟨s, fs, h'⟩ := uprooted_eq (x.setLock .free) _
      rw [h, h']
      rfl
  | installFails ha hi h =>
      rcases h with ⟨rfl, -⟩ | ⟨rfl, -⟩
      · rfl
      · obtain ⟨s, fs, h'⟩ := uprooted_eq (x.setLock .free) _
        rw [h']
        rfl
  | change ha => exact absurd ha hev
  | _ => rfl

theorem configChange_restart (e : Engine) :
    (e.step (.act .restart)).configChange = none := by
  have hmark : ∀ e : Engine, e.refreshConfig.markUp.configChange = e.configChange := fun e => by
    obtain ⟨d, ms, ls, h, -⟩ := refreshConfig_eq e
    rw [h]
    rfl
  refine (wp_after (P := fun e' : Engine => e'.configChange = none)).mp ?_
  simp only [NodeEvent.body, Action.body, construct, restorePersistentState, wp_bind, wp_modify,
    wp_get, wp_ite, wp_storageCall]
  split
  · split
    · rfl
    · rw [hmark]
      rfl
  · rw [hmark]
    rfl

/-- Who is made a learner is made one by a membership call. -/
theorem changing_of_teaches {e : Engine} {m : Member} (h : e.Teaches ev m) :
    ev ≠ .act .restart ∧ ev.Changing := by
  have hr : ev ≠ .act .restart := by
    rintro rfl
    have := h.1
    rw [Engine.learning, configChange_restart] at this
    cases this
  refine ⟨hr, by_contra fun hn => h.2 ?_⟩
  have hkeep : (e.step ev).configChange = e.configChange :=
    (section_step hr).keeps (P := fun u => u.configChange = e.configChange) rfl
      (fun _ _ _ hm hu => (hm.configChange hn).trans hu) fun _ _ _ hu => hu
  have := h.1
  rwa [Engine.learning, hkeep] at this

/-- Only a leader appends what a membership call proposes. -/
theorem leader_of_promotes {e : Engine} {m : Member} (h : e.Promotes ev m) :
    e.node.state = .leader := by
  obtain ⟨rfl, hl, hlog⟩ := h
  by_contra hn
  refine hlog ((wp_after (P := fun e' : Engine => e'.node.log = e.node.log)).mp ?_)
  unfold Engine.learning at hl
  split at hl
  · rename_i c hc
    split at hl
    · rename_i hp
      simp only [NodeEvent.body, Action.body, wakeChange, wp_bind, wp_get, hc]
      cases hphase : c.phase with
      | catchUp term =>
          dsimp only
          cases c.change with
          | add m =>
              simp only [wp_modify]
              unfold Engine.catchUpLearner
              split
              · split
                · rfl
                · rfl
              · rfl
          | remove nodeId => rfl
      | propose members =>
          simp only [proposeConfig, startProposal, propose, wp_bind, wp_get, wp_tryCatch, wp_ite,
            wp_throw, wp_modify, if_pos hn]
          split
          · rfl
          · rfl
      | _ =>
          rw [hphase] at hp
          cases hp
    · cases hl
  · cases hl

end Moves

/-! ## Runs -/

section Runs

variable {e : Engine} {evs : List NodeEvent} {ev : NodeEvent} {m : Member}

/-- Between `teach` and now, in term `t`, the learner acknowledged `index`. -/
def Engine.AckedSince (e : Engine) (before : List NodeEvent) (teach : NodeEvent)
    (between : List NodeEvent) (t : Nat) (peer : NodeId) (index : Nat) : Prop :=
  ∃ early ack late, between = early ++ ack :: late ∧
    Leads t (e.run (before ++ teach :: early)) ∧
    (e.run (before ++ teach :: early)).Acknowledges ack peer index

/-- `m`, which is being caught up, was behind when it became a learner, and
is watched since. -/
def Engine.Taught (e : Engine) (evs : List NodeEvent) (taught : Option Nat) (m : Member) : Prop :=
  ∃ before teach between, evs = before ++ teach :: between ∧
    (e.run before).Teaches teach m ∧ (e.run before).Behind m ∧
    taught = some (e.run before).node.currentTerm ∧
    (Lost (e.run before).node.currentTerm (e.run evs) ∨
      Leads (e.run before).node.currentTerm (e.run evs) ∧
        Watched (e.AckedSince before teach between (e.run before).node.currentTerm m.nodeId)
          (e.run before).node.lastLogIndex ((e.run before).node.matchIndex.getD m.nodeId 0)
          m.nodeId (e.run evs))

theorem run_snoc (e : Engine) (evs : List NodeEvent) (ev : NodeEvent) :
    e.run (evs ++ [ev]) = (e.run evs).step ev := Engine.run_append e evs [ev]

theorem Engine.Taught.step {taught : Option Nat}
    (h : ∀ m, (e.run evs).learning = some m → e.Taught evs taught m)
    (hc : (e.run evs).StepCareful ev taught)
    (hm : (e.run (evs ++ [ev])).learning = some m) :
    e.Taught (evs ++ [ev]) ((e.run evs).taughtIn ev taught) m := by
  rw [run_snoc] at hm
  by_cases hl : (e.run evs).learning = some m
  · obtain ⟨before, teach, between, rfl, ht, hb, rfl, hw⟩ := h m hl
    have hev : ev ≠ .act .restart := by
      rintro rfl
      rw [Engine.learning, configChange_restart] at hm
      cases hm
    refine ⟨before, teach, between ++ [ev], by simp, ht, hb, ?_, ?_⟩
    · rw [Engine.taughtIn, if_neg]
      rintro ⟨-, hne⟩
      exact hne (hm.trans hl.symm)
    · rw [run_snoc]
      have hsafe := hc.2.1 (by rw [hl]; exact Option.some_ne_none m)
      have hlonger : ∀ i, e.AckedSince before teach between (e.run before).node.currentTerm
          m.nodeId i → e.AckedSince before teach (between ++ [ev])
            (e.run before).node.currentTerm m.nodeId i :=
        fun i ⟨early, ack, late, hs, hacked⟩ => ⟨early, ack, late ++ [ev], by rw [hs]; simp, hacked⟩
      have hw' := hw.imp id fun hw => And.intro hw.1
        (hw.2.weaken hlonger)
      exact Watched.step hev hsafe hw' fun hlead i hi => ⟨between, ev, [], by simp, hlead, hi⟩
  · have ht : (e.run evs).Teaches ev m := ⟨hm, hl⟩
    have hb := hc.1 m ht
    obtain ⟨hev, hch⟩ := changing_of_teaches ht
    refine ⟨evs, ev, [], rfl, ht, hb, ?_, ?_⟩
    · rw [Engine.taughtIn, if_pos ⟨by rw [hm]; exact Option.some_ne_none m,
        fun heq => hl (heq ▸ hm)⟩]
    · rw [run_snoc]
      have hsafe : (e.run evs).LogSafe ev := fun install hf => by
        subst hf
        rcases hch with h | ⟨_, _, h⟩
        · cases h
        · cases h
      refine Watched.step hev hsafe (Or.inr ⟨leads_iff.mpr ⟨rfl, hb.1⟩, Nat.le_refl _,
        Or.inl (Nat.le_refl _), ?_⟩) ?_
      · rintro i ⟨transfer, hmem, hp, hterm, -⟩
        exact absurd hterm (hb.2.2 transfer hmem hp)
      · rintro - i ⟨-, h | h⟩
        · obtain ⟨request, seq, response, ⟨env, rfl, -⟩, -⟩ := h
          rcases hch with h | ⟨_, _, h⟩
          · cases h
          · cases h
        · obtain ⟨request, transfer, response, ⟨env, rfl, -⟩, -⟩ := h
          rcases hch with h | ⟨_, _, h⟩
          · cases h
          · cases h

theorem Engine.Taught.caughtUp {taught : Option Nat} (h : e.Taught evs taught m)
    (hp : (e.run evs).Promotes ev m) (hc : (e.run evs).StepCareful ev taught) :
    e.CaughtUp evs m := by
  obtain ⟨before, teach, between, rfl, ht, hb, rfl, hw⟩ := h
  obtain ⟨hterm, hbatch⟩ := hc.2.2 m hp
  have hlead : Leads (e.run before).node.currentTerm (e.run (before ++ teach :: between)) :=
    leads_iff.mpr ⟨(Option.some.inj hterm).symm, leader_of_promotes hp⟩
  rcases hw with hw | ⟨-, hw⟩
  · exact absurd hlead hw.not_leads
  · rcases hw.known with hk | ⟨i, ⟨early, ack, late, rfl, hearly, hack⟩, hk⟩
    · -- what the leader knew at first is not within one batch
      have h1 := hw.log
      have h2 := hb.2.1
      omega
    · refine ⟨before, teach, early, ack, late, i, by simp, ht, ?_, ?_, hack, ?_⟩
      · exact (leads_iff.mpr ⟨rfl, hb.1⟩ : Leads _ (e.run before)).trans hlead.symm
      · exact hearly.trans hlead.symm
      · exact hbatch.trans (Nat.add_le_add_right hk _)

theorem Engine.Careful.caughtUp {e : Engine} {done evs : List NodeEvent} {taught : Option Nat}
    (h : ∀ m, (e.run done).learning = some m → e.Taught done taught m)
    (hc : (e.run done).Careful taught evs) {before after : List NodeEvent}
    (hs : evs = before ++ ev :: after) (hp : (e.run (done ++ before)).Promotes ev m) :
    e.CaughtUp (done ++ before) m := by
  induction evs generalizing done taught before with
  | nil => simp at hs
  | cons first evs ih =>
      cases before with
      | nil =>
          obtain ⟨rfl, rfl⟩ := List.cons.inj hs
          rw [List.append_nil] at hp ⊢
          exact (h m hp.2.1).caughtUp hp hc.1
      | cons b before =>
          obtain ⟨rfl, rfl⟩ := List.cons.inj hs
          have hc' := hc.2
          rw [← run_snoc] at hc'
          rw [show done ++ first :: before = (done ++ [first]) ++ before by simp] at hp ⊢
          exact ih (fun m hm => Engine.Taught.step h hc.1 hm) hc' rfl hp

end Runs

/-- In a run whose steps are careful, every node that is promoted has caught
up: since its leader made it a learner it acknowledged, in the leader's term,
an index within one batch of the leader's log. -/
theorem promoted_after_catching_up {settings : Settings} {faults : StorageCall → List Bool}
    {evs : List NodeEvent} (hc : (boot settings faults).Careful none evs)
    {before after : List NodeEvent} {ev : NodeEvent} {m : Member}
    (hs : evs = before ++ ev :: after)
    (hp : ((boot settings faults).run before).Promotes ev m) :
    (boot settings faults).CaughtUp before m := by
  have hnone : ∀ m, ((boot settings faults).run []).learning = some m →
      (boot settings faults).Taught [] none m := fun m hm => by
    have hn : (boot settings faults).configChange = none :=
      configChange_restart { settings := settings, faults := faults }
    rw [Engine.learning, show ((boot settings faults).run []).configChange = none from hn] at hm
    cases hm
  exact Engine.Careful.caughtUp hnone hc hs hp

/-! ## Two runs -/

/-- Nothing about learners changes in the step. -/
theorem stepCareful_of_same {e : Engine} {ev : NodeEvent} {taught : Option Nat}
    (hl : (e.step ev).learning = e.learning) (hsafe : e.LogSafe ev)
    (hp : (e.step ev).node.log = e.node.log ∨ e.learning = none) : e.StepCareful ev taught := by
  refine ⟨fun m h => absurd (hl.symm.trans h.1) h.2, fun _ => hsafe, fun m h => ?_⟩
  rcases hp with hp | hp
  · exact absurd hp h.2.2
  · exact absurd (hp.symm.trans h.2.1) nofun

theorem logSafe_of_ne {e : Engine} {ev : NodeEvent} (h : ev ≠ .act (.finishInstall true)) :
    e.LogSafe ev := fun _ hev => absurd hev h

theorem Engine.Careful.cons {e : Engine} {ev : NodeEvent} {evs : List NodeEvent}
    {taught : Option Nat} (h : e.StepCareful ev taught)
    (h' : (e.step ev).Careful (e.taughtIn ev taught) evs) : e.Careful taught (ev :: evs) := ⟨h, h'⟩

/-- There is no learner anywhere in the run. -/
def Engine.NoLearner (e : Engine) : List NodeEvent → Prop
  | [] => e.learning = none
  | ev :: evs => e.learning = none ∧ (e.step ev).NoLearner evs

instance Engine.decidableNoLearner (e : Engine) : (evs : List NodeEvent) → Decidable (e.NoLearner evs)
  | [] => inferInstanceAs (Decidable (_ = none))
  | ev :: evs => by
      have := (e.step ev).decidableNoLearner evs
      exact inferInstanceAs (Decidable (_ ∧ _))

theorem Engine.NoLearner.head {e : Engine} : ∀ {evs : List NodeEvent}, e.NoLearner evs →
    e.learning = none
  | [], h => h
  | _ :: _, h => h.1

/-- Such a run is careful, and a careful one may follow. -/
theorem Engine.NoLearner.careful {evs' : List NodeEvent} {taught : Option Nat} :
    ∀ {e : Engine} {evs : List NodeEvent}, e.NoLearner evs → (e.run evs).Careful taught evs' →
      e.Careful taught (evs ++ evs')
  | _, [], _, h' => h'
  | e, ev :: _, h, h' => by
      have hnone := h.2.head
      have htaught : e.taughtIn ev taught = taught := if_neg fun hc => hc.1 hnone
      refine ⟨⟨fun m hm => ?_, fun hl => absurd h.1 hl, fun m hm => ?_⟩, ?_⟩
      · exact absurd (hnone.symm.trans hm.1) nofun
      · exact absurd (h.1.symm.trans hm.2.1) nofun
      · rw [htaught]
        exact h.2.careful h'

def firstNode : Member := { nodeId := "n1", raftAddress := "a1" }

def secondNode : Member := { nodeId := "n2", raftAddress := "a2" }

def thirdNode : Member := { nodeId := "n3", raftAddress := "a3" }

/-- A node that is a cluster of its own. -/
def alone : Settings where
  nodeId := "n1"
  raftAddress := "a1"
  bootstrap := [firstNode]

/-- It leads, and is asked to add a node. -/
def additionAlone : List NodeEvent :=
  [.act .start, .act (.changeMembership (.add secondNode) 30000)]

/-- The node is promoted although it never answered. -/
theorem silent_node_is_promoted :
    ((boot alone fun _ => []).run additionAlone).Promotes (.act .wakeChange) secondNode ∧
      ¬ (boot alone fun _ => []).CaughtUp additionAlone secondNode := by
  refine ⟨⟨rfl, by decide +kernel, by decide +kernel⟩, ?_⟩
  rintro ⟨before, teach, between, ack, after, index, hs, -, -, -, ⟨-, hack⟩, -⟩
  have hmem : ack ∈ additionAlone := hs ▸ by simp
  have hact : ∃ a, ack = .act a := by
    rcases List.mem_cons.mp hmem with h | h
    · exact ⟨_, h⟩
    · exact ⟨_, List.mem_singleton.mp h⟩
  obtain ⟨a, rfl⟩ := hact
  rcases hack with ⟨_, _, _, ⟨_, h, -⟩, -⟩ | ⟨_, _, _, ⟨_, h, -⟩, -⟩
  · cases h
  · cases h

/-- One of two nodes. -/
def paired : Settings := { alone with bootstrap := [firstNode, secondNode] }

/-- The reply to a call of the first process of the node. -/
def replyTo (call : Call) (response : Response) : NodeEvent :=
  .receive (.reply { src := "n1", epoch := 1, address := "", call := call } response)

/-- The request of the leader of term 2 after its log up to `prev`. -/
def heartbeat (prev : Nat) : AppendEntriesRequest where
  term := 2
  leaderId := "n1"
  prevLogIndex := prev
  prevLogTerm := none
  entries := []
  leaderCommit := 0

/-- The node receives a snapshot of a long log, takes over from its leader and
commits an entry of its own. -/
def takeOver : List NodeEvent :=
  [.act .start,
    .receive (.call
      { src := "n2", epoch := 1, address := "a1"
        call := .installSnapshot
          { term := 1, leaderId := "n2", lastIncludedIndex := 101, lastIncludedTerm := 1
            offset := 0, data := [], done := true, config := some [firstNode, secondNode] }
          { peer := "n1", address := "a1", term := 1, index := 101, lastTerm := 1
            config := [firstNode, secondNode], file := [] } }),
    .act (.beginInstall 0),
    .act (.finishInstall true),
    .act (.electionTimeout 2),
    replyTo (.preVote "n2"
      { term := 2, candidateId := "n1", lastLogIndex := 101, lastLogTerm := 1, preVote := true } 3)
      (.requestVote { term := 1, voteGranted := true }),
    replyTo (.requestVote "n2"
      { term := 2, candidateId := "n1", lastLogIndex := 101, lastLogTerm := 1 })
      (.requestVote { term := 2, voteGranted := true }),
    replyTo (.appendEntries "n2" (heartbeat 102) 1)
      (.appendEntries { term := 2, success := true, matchIndex := 102 })]

/-- A third node is added, acknowledges the log and is promoted. -/
def additionBehind : List NodeEvent :=
  [.act (.changeMembership (.add thirdNode) 30000),
    replyTo (.appendEntries "n3" (heartbeat 101) 2)
      (.appendEntries { term := 2, success := true, matchIndex := 101 }),
    .act .wakeChange]

/-- The node in office. -/
def inOffice : Engine := (boot paired fun _ => []).run takeOver

/-- Every step of this run is careful. -/
theorem additionBehind_careful :
    (boot paired fun _ => []).Careful none (takeOver ++ (additionBehind ++ [.act .wakeChange])) := by
  refine Engine.NoLearner.careful (by decide +kernel) ?_
  change inOffice.Careful none _
  unfold additionBehind
  refine .cons ⟨fun m h => ?_, fun _ => logSafe_of_ne nofun, fun m h => nomatch h.1⟩
    (.cons (stepCareful_of_same (by decide +kernel) (logSafe_of_ne nofun) (Or.inl (by decide +kernel)))
      (.cons (stepCareful_of_same (by decide +kernel) (logSafe_of_ne nofun) (Or.inl (by decide +kernel)))
        (.cons ⟨fun m h => absurd (h.1.symm.trans (by decide +kernel)) (Option.some_ne_none m),
          fun _ => logSafe_of_ne nofun, fun m h => ?_⟩ trivial)))
  · have hm : m = thirdNode := Option.some.inj (h.1.symm.trans (by decide +kernel))
    subst hm
    exact ⟨by decide +kernel, by decide +kernel, by decide +kernel⟩
  · have hm : m = thirdNode := Option.some.inj (h.2.1.symm.trans (by decide +kernel))
    subst hm
    exact ⟨by decide +kernel, by decide +kernel⟩

theorem promoted_after_catching_up_third :
    ((boot paired fun _ => []).run (takeOver ++ additionBehind)).Promotes (.act .wakeChange)
        thirdNode ∧
      (boot paired fun _ => []).CaughtUp (takeOver ++ additionBehind) thirdNode := by
  have hp : ((boot paired fun _ => []).run (takeOver ++ additionBehind)).Promotes (.act .wakeChange)
      thirdNode := ⟨rfl, by decide +kernel, by decide +kernel⟩
  exact ⟨hp, promoted_after_catching_up additionBehind_careful rfl hp⟩

end KvCache

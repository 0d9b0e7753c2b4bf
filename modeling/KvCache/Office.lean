import KvCache.EngineMoves
import KvCache.FullLog

/-!
# A leader in office

A node leads a term without interruption, or has lost it for good: it comes
to a higher term, or follows in that one, and from neither is there a way
back while its process runs (`Leads`, `Lost`). In office its log only grows,
unless a snapshot that does not match the log replaces it; a step that does
so is no `LogSafe` one.
-/

namespace KvCache

open StateWp Engine

/-- Term and state. -/
def Engine.role (e : Engine) : Nat × RaftState := (e.node.currentTerm, e.node.state)

theorem role_of_gist {e e' : Engine} (h : e'.gist = e.gist) : e'.role = e.role :=
  (congrArg Engine.role h : e'.gist.role = e.gist.role)

section Office

variable {ev : NodeEvent} {b : Bool} {x y : Engine} {t : Nat}

/-- How term and state change in one move. Both only do before a node takes
office. -/
theorem Move.role (hm : Move ev b x y) :
    y.role = x.role ∨ b = false ∧
      (x.node.currentTerm < y.node.currentTerm ∧
          (y.node.state = x.node.state ∨ y.node.state ≠ .leader) ∨
        y.node.currentTerm = x.node.currentTerm ∧ y.node.state = .follower) := by
  cases hm with
  | idle h => exact Or.inl (role_of_gist h)
  | adoptTerm hb h =>
      obtain ⟨l, ls, b, hd⟩ := stepDown_eq (x.enterTerm _).saveVote
      rw [hd]
      exact Or.inr ⟨hb, Or.inl ⟨h, Or.inr fun hs => by cases hs⟩⟩
  | adoptTermFails hb h => exact Or.inr ⟨hb, Or.inl ⟨h, Or.inl rfl⟩⟩
  | stepDown hb =>
      obtain ⟨l, ls, b, hd⟩ := stepDown_eq x
      rw [hd]
      exact Or.inr ⟨hb, Or.inr ⟨rfl, rfl⟩⟩
  | stand hb => exact Or.inr ⟨hb, Or.inl ⟨Nat.lt_succ_self _, Or.inr fun hs => by cases hs⟩⟩
  | standFails hb => exact Or.inr ⟨hb, Or.inl ⟨Nat.lt_succ_self _, Or.inr fun hs => by cases hs⟩⟩
  | noop =>
      obtain ⟨d, k, ms, ls, h, -⟩ := appended_eq x [x.newEntry .noop "" ""]
      rw [h]
      exact Or.inl rfl
  | propose timeout =>
      obtain ⟨d, k, ms, ls, c, h, -⟩ := proposed_eq x _ timeout
      rw [h]
      exact Or.inl rfl
  | receive =>
      obtain ⟨d, k, ms, ls, h, -⟩ := appended_eq x _
      rw [h]
      exact Or.inl rfl
  | truncate =>
      obtain ⟨d, ms, ls, h, -⟩ := truncated_eq x _
      rw [h]
      exact Or.inl rfl
  | advanceCommit =>
      obtain ⟨k, h, -⟩ := advanceCommitIndex_eq x
      rw [h]
      exact Or.inl rfl
  | followCommit =>
      obtain ⟨k, h, -⟩ := followCommit_eq x _ _
      rw [h]
      exact Or.inl rfl
  | startReplicator =>
      obtain ⟨d, h, -⟩ := startReplicator_eq x _
      rw [h]
      exact Or.inl rfl
  | install =>
      obtain ⟨d, ms, ls, h, -⟩ := installed_eq (x.setLock .free) _
      obtain ⟨s, fs, h'⟩ := uprooted_eq (x.setLock .free) _
      rw [h, h']
      exact Or.inl rfl
  | installFails ha hi h =>
      rcases h with ⟨rfl, -⟩ | ⟨rfl, -⟩
      · exact Or.inl rfl
      · obtain ⟨s, fs, h⟩ := uprooted_eq (x.setLock .free) _
        rw [h]
        exact Or.inl rfl
  | _ => exact Or.inl rfl

/-- The node leads term `t`. -/
def Leads (t : Nat) (e : Engine) : Prop := e.role = (t, .leader)

/-- The node cannot lead term `t` any more. -/
def Lost (t : Nat) (e : Engine) : Prop := t < e.node.currentTerm ∨ e.role = (t, .follower)

theorem leads_iff {e : Engine} :
    Leads t e ↔ e.node.currentTerm = t ∧ e.node.state = .leader := Prod.mk_inj

theorem Lost.not_leads (h : Lost t x) : ¬ Leads t x := by
  intro hl
  rcases h with h | h
  · rw [(leads_iff.mp hl).1] at h
    exact Nat.lt_irrefl t h
  · rw [hl] at h
    cases h

theorem Move.lost (hm : Move ev b x y) (h : Lost t x) : Lost t y := by
  rcases hm.role with hr | ⟨-, ⟨hr, -⟩ | ⟨ht, hr⟩⟩
  · rcases h with h | h
    · exact Or.inl (Nat.lt_of_lt_of_eq h (congrArg Prod.fst hr).symm)
    · exact Or.inr (hr.trans h)
  · rcases h with h | h
    · exact Or.inl (h.trans hr)
    · exact Or.inl (lt_of_eq_of_lt (congrArg Prod.fst h).symm hr)
  · rcases h with h | h
    · exact Or.inl (ht ▸ h)
    · exact Or.inr (Prod.ext (ht.trans (congrArg Prod.fst h)) hr)

theorem Lost.takeOffice (h : Lost t x) (hc : x.node.state = .candidate) : Lost t x.takeOffice := by
  rcases h with h | h
  · exact Or.inl h
  · rw [show x.node.state = .follower from congrArg Prod.snd h] at hc
    cases hc

/-- A leader stays one or has lost the term. -/
theorem Move.leads (hm : Move ev b x y) (h : Leads t x) : Leads t y ∨ Lost t y := by
  have hx := leads_iff.mp h
  rcases hm.role with hr | ⟨-, ⟨hr, -⟩ | ⟨ht, hr⟩⟩
  · exact Or.inl (hr.trans h)
  · exact Or.inr (Or.inl (hx.1 ▸ hr))
  · exact Or.inr (Or.inr (Prod.ext (ht.trans hx.1) hr))

theorem Section.lost (h : Section ev x y) (hx : Lost t x) : Lost t y :=
  h.keeps hx (fun _ _ _ => Move.lost) fun _ hc _ hu => hu.takeOffice hc

/-- What holds in office as long as the office does. -/
theorem Section.office {P : Engine → Prop} (h : Section ev x y) (hx : Lost t x ∨ Leads t x ∧ P x)
    (hm : ∀ b u v, Move ev b u v → Leads t u → Leads t v → P u → P v) :
    Lost t y ∨ Leads t y ∧ P y := by
  refine h.keeps (P := fun y => Lost t y ∨ Leads t y ∧ P y) hx (fun b u v huv hu => ?_)
    fun u hc _ hu => ?_
  · rcases hu with hu | ⟨hl, hp⟩
    · exact Or.inl (huv.lost hu)
    · rcases huv.leads hl with hv | hv
      · exact Or.inr ⟨hv, hm b u v huv hl hv hp⟩
      · exact Or.inl hv
  · rcases hu with hu | ⟨hl, hp⟩
    · exact Or.inl (hu.takeOffice hc)
    · rw [(leads_iff.mp hl).2] at hc
      cases hc

/-- Only taking office makes a leader. -/
theorem Move.state_ne (hm : Move ev false x y) (h : x.node.state ≠ .leader) :
    y.node.state ≠ .leader := by
  rcases hm.role with hr | ⟨-, ⟨-, hr | hr⟩ | ⟨-, hr⟩⟩
  · rwa [show y.node.state = x.node.state from congrArg Prod.snd hr]
  · rwa [hr]
  · exact hr
  · rw [hr]
    exact fun hs => by cases hs

/-- In the section in which it takes office, a node does not lose it. -/
theorem Move.state_eq (hm : Move ev true x y) : y.node.state = x.node.state := by
  rcases hm.role with hr | ⟨hb, -⟩
  · exact congrArg Prod.snd hr
  · cases hb

/-- Settings and process are those of before. -/
theorem Move.process (hm : Move ev b x y) : y.settings = x.settings ∧ y.epoch = x.epoch := by
  have hdesk : ∀ {e : Engine}, e.desk = x.desk → e.settings = x.settings ∧ e.epoch = x.epoch :=
    fun h => ⟨congrArg Desk.settings h, congrArg Desk.epoch h⟩
  cases hm with
  | idle h => exact ⟨(congrArg Engine.settings h : _), (congrArg Engine.epoch h : _)⟩
  | adoptTerm => exact hdesk (desk_stepDown (x.enterTerm _).saveVote)
  | stepDown => exact hdesk (desk_stepDown x)
  | noop => exact hdesk (desk_appended x _)
  | propose timeout =>
      obtain ⟨d, k, ms, ls, c, h, -⟩ := proposed_eq x _ timeout
      rw [h]
      exact ⟨rfl, rfl⟩
  | receive => exact hdesk (desk_appended x _)
  | truncate => exact hdesk (desk_truncated x _)
  | advanceCommit => exact hdesk (desk_advanceCommitIndex x)
  | followCommit => exact hdesk (desk_followCommit x _ _)
  | startReplicator => exact hdesk (desk_startReplicator x _)
  | install =>
      obtain ⟨d, ms, ls, h, -⟩ := installed_eq (x.setLock .free) _
      obtain ⟨s, fs, h'⟩ := uprooted_eq (x.setLock .free) _
      rw [h, h']
      exact ⟨rfl, rfl⟩
  | installFails ha hi h =>
      rcases h with ⟨rfl, -⟩ | ⟨rfl, -⟩
      · exact ⟨rfl, rfl⟩
      · obtain ⟨s, fs, h⟩ := uprooted_eq (x.setLock .free) _
        rw [h]
        exact ⟨rfl, rfl⟩
  | _ => exact ⟨rfl, rfl⟩

/-! ## The log in office -/

/-- No snapshot replaces the log of a leader in this step. -/
def Engine.LogSafe (e : Engine) (ev : NodeEvent) : Prop :=
  ∀ install, ev = .act (.finishInstall true) → e.applyLock = .installing install →
    e.node.state = .leader → ¬ e.Mismatch install.request

/-- One step of a node that has held office in term `t`. -/
theorem office_step {P : Engine → Prop} {e : Engine} (hev : ev ≠ .act .restart)
    (hsafe : e.LogSafe ev) (h : Lost t e ∨ Leads t e ∧ P e)
    (hm : ∀ b u v, Move ev b u v → u.LogSafe ev → Leads t u → Leads t v → P u → P v) :
    Lost t (e.step ev) ∨ Leads t (e.step ev) ∧ P (e.step ev) := by
  by_cases hf : ev = .act (.finishInstall true)
  · subst hf
    have hone : ∀ e', e' = e ∨ Move (.act (.finishInstall true)) false e e' →
        Lost t e' ∨ Leads t e' ∧ P e' := by
      rintro e' (rfl | hmove)
      · exact h
      · rcases h with h | ⟨hl, hp⟩
        · exact Or.inl (hmove.lost h)
        · rcases hmove.leads hl with hl' | hl'
          · exact Or.inr ⟨hl', hm false e e' hmove hsafe hl hl' hp⟩
          · exact Or.inl hl'
    refine (wp_after (P := fun e' => Lost t e' ∨ Leads t e' ∧ P e')).mp ?_
    exact wp_mono (move_finishInstall rfl) (fun _ => hone) fun _ => hone
  · exact (section_step hev).office h fun b u v huv hu hv hp =>
      hm b u v huv (fun _ h => absurd h hf) hu hv hp

/-- The last index after the log is folded at an index it holds. -/
theorem lastLogIndex_compactThrough {n : RaftNode} {k u : Nat} (config : Option (List Member))
    (ht : n.termAt k = some u) :
    (n.compactThrough k u config).lastLogIndex = n.lastLogIndex := by
  have hk : n.snapshotIndex ≤ k ∧ k ≤ n.lastLogIndex := by
    unfold RaftNode.termAt at ht
    split at ht
    · rename_i he
      rw [he]
      exact ⟨Nat.le_refl _, Nat.le_add_right _ _⟩
    · split at ht
      · cases ht
      · omega
  unfold RaftNode.lastLogIndex at hk ⊢
  rw [RaftNode.compactThrough_log n config hk.1 ht, List.length_drop]
  simp only [RaftNode.compactThrough]
  omega

theorem lastLogIndex_folded {e : Engine} (hd : 0 < e.node.lastApplied - e.node.snapshotIndex) :
    e.node.lastLogIndex ≤ e.folded.node.lastLogIndex := by
  unfold Engine.folded Engine.compact
  cases ht : e.node.termAt e.node.lastApplied with
  | some u => exact Nat.le_of_eq (lastLogIndex_compactThrough _ ht).symm
  | none =>
      have hlt : e.node.lastLogIndex < e.node.lastApplied := by
        unfold RaftNode.termAt at ht
        split at ht
        · cases ht
        · split at ht
          · omega
          · rename_i h1 h2
            rw [Option.map_eq_none_iff, List.getElem?_eq_none_iff] at ht
            unfold RaftNode.lastLogIndex at h2 ⊢
            omega
      exact hlt.le.trans (Nat.le_add_right _ _)

theorem lastLogIndex_adoptSnapshot {e : Engine} {req : InstallSnapshotRequest}
    (hm : ¬ e.Mismatch req) : (e.adoptSnapshot req).node.lastLogIndex = e.node.lastLogIndex :=
  lastLogIndex_compactThrough (some (req.config.getD [])) (Decidable.not_not.mp hm)

theorem Accepts.not_leads {n : RaftNode} {req : AppendEntriesRequest} (ha : Accepts ev n req)
    (hx : x.node.state = n.state) : ¬ Leads t x := by
  intro hl
  have := (leads_iff.mp hl).2
  rw [hx, ha.follower] at this
  cases this

theorem Lacks.state {n m : RaftNode} {req : AppendEntriesRequest} {es : List LogEntry}
    (hl : Lacks n m req es) : m.state = n.state := by
  obtain ⟨y, rest, -, h | h⟩ := hl.next
  · rw [h.2]
  · rw [h.2.2]
    rfl

theorem lastLogIndex_extendLog (e : Engine) (es : List LogEntry) :
    e.node.lastLogIndex ≤ (e.extendLog es).node.lastLogIndex :=
  Nat.add_le_add_left (List.length_append ▸ Nat.le_add_right _ _) _

theorem log_stepDown (e : Engine) : e.stepDown.node.lastLogIndex = e.node.lastLogIndex := by
  unfold Engine.stepDown
  split
  · rfl
  · rfl

theorem log_advanceCommitIndex (e : Engine) :
    e.advanceCommitIndex.node.lastLogIndex = e.node.lastLogIndex := by
  unfold Engine.advanceCommitIndex
  split
  · rfl
  · split
    · rfl
    · rfl

theorem log_followCommit (e : Engine) (k m : Nat) :
    (e.followCommit k m).node.lastLogIndex = e.node.lastLogIndex := by
  unfold Engine.followCommit
  split
  · rfl
  · rfl

theorem lastLogIndex_appended (e : Engine) (es : List LogEntry) :
    (e.appended es).node.lastLogIndex = e.node.lastLogIndex + es.length := by
  obtain ⟨d, k, ms, ls, h, -⟩ := appended_eq e es
  rw [h]
  exact (congrArg _ List.length_append).trans (Nat.add_assoc _ _ _).symm

theorem lastLogIndex_uprooted {req : InstallSnapshotRequest} (hm : ¬ x.Mismatch req) :
    (x.uprooted req).node.lastLogIndex = x.node.lastLogIndex := by
  rw [Engine.uprooted, if_neg hm]
  exact lastLogIndex_adoptSnapshot hm

theorem lastLogIndex_installed {req : InstallSnapshotRequest} (hm : ¬ x.Mismatch req) :
    (x.installed req).node.lastLogIndex = x.node.lastLogIndex := by
  unfold Engine.installed
  dsimp only
  obtain ⟨d, ms, ls, h, -⟩ := refreshConfig_eq ((x.uprooted req).stored .saveSnapshot fun s =>
    s.saveSnapshot (x.uprooted req).node.snapshotIndex (x.uprooted req).node.snapshotTerm
      (x.uprooted req).node.lastApplied (some (req.config.getD [])))
  rw [h]
  exact lastLogIndex_uprooted hm

theorem node_replyInstall (e : Engine) (y : Install) : (e.replyInstall y).node = e.node := rfl

/-- A leader's log only grows. -/
theorem Move.lastLogIndex_le (hm : Move ev b x y) (hsafe : x.LogSafe ev) (hx : Leads t x) :
    x.node.lastLogIndex ≤ y.node.lastLogIndex := by
  have hl := (leads_iff.mp hx).2
  cases hm with
  | idle h => exact Nat.le_of_eq (congrArg (·.node.lastLogIndex) h : _ = _).symm
  | adoptTerm hb h => exact Nat.le_of_eq (log_stepDown (x.enterTerm _).saveVote).symm
  | stepDown => exact Nat.le_of_eq (log_stepDown _).symm
  | noop =>
      rw [lastLogIndex_appended]
      exact Nat.le_add_right _ _
  | noopFails => exact lastLogIndex_extendLog x _
  | propose timeout =>
      refine Nat.le_trans ?_ (Nat.le_of_eq (log_advanceCommitIndex _).symm)
      exact (lastLogIndex_appended x _).symm ▸ Nat.le_add_right _ _
  | proposeFails => exact lastLogIndex_extendLog x _
  | receive ha hla => exact absurd hx (ha.not_leads hla.state)
  | receiveFails ha hla => exact absurd hx (ha.not_leads hla.state)
  | truncate ha => exact absurd hx (ha.not_leads rfl)
  | truncateFails ha => exact absurd hx (ha.not_leads rfl)
  | advanceCommit => exact Nat.le_of_eq (log_advanceCommitIndex x).symm
  | followCommit => exact Nat.le_of_eq (log_followCommit x _ _).symm
  | startReplicator =>
      obtain ⟨d, h, -⟩ := startReplicator_eq x ‹_›
      rw [h]
      exact Nat.le_refl _
  | install ha hi =>
      rw [node_replyInstall, lastLogIndex_installed (x := x.setLock .free) (hsafe _ ha hi hl)]
      exact Nat.le_refl _
  | installFails ha hi h =>
      rcases h with ⟨rfl, -, hmis⟩ | ⟨rfl, -⟩
      · exact absurd hmis (hsafe _ ha hi hl)
      · exact Nat.le_of_eq (lastLogIndex_uprooted (x := x.setLock .free) (hsafe _ ha hi hl)).symm
  | compact ht hd => exact lastLogIndex_folded (Nat.lt_of_lt_of_le (Nat.pos_of_ne_zero ht) hd)
  | compactFails ht hd => exact lastLogIndex_folded (Nat.lt_of_lt_of_le (Nat.pos_of_ne_zero ht) hd)
  | _ => exact Nat.le_refl _

end Office

end KvCache

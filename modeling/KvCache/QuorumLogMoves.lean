import Mathlib.Logic.Function.Basic
import KvCache.QuorumLog

/-!
# The moves of a replicated log

The ways a history may grow, and that each keeps `History.Ok`: a node
enters a higher term (`adopt`), stands for election (`stand`), votes
(`vote`), wins (`elect`), appends as a leader (`append`), acknowledges a
prefix of the current leader's log (`ack`), and replaces a log that lacks a
prefix by that prefix (`overwrite`) - the tail of a dead leader cut off, or
a snapshot installed.

`Grows i h h'` is the frame of every move of node `i`: nothing is
forgotten, and what concerns only other nodes is unchanged.
-/

namespace QuorumLog

namespace History

open scoped Classical

noncomputable section

variable {ν ε : Type}

/-- `h'` extends `h` by moves of the node `i`. -/
structure Grows (i : ν) (h h' : History ν ε) : Prop where
  cur_le : ∀ v, h.cur v ≤ h'.cur v
  others : ∀ {v}, v ≠ i → h'.cur v = h.cur v ∧ h'.log v = h.log v
  campaign : ∀ {c t b}, h.campaign c t b → h'.campaign c t b
  grant : ∀ {v t c l}, h.grant v t c l → h'.grant v t c l
  grant_of_ne : ∀ {v t c l}, v ≠ i → h'.grant v t c l → h.grant v t c l
  elected : ∀ {t c b}, h.elected t c b → h'.elected t c b
  elected_of_ne : ∀ {t c b}, c ≠ i → h'.elected t c b → h.elected t c b
  lead : ∀ {t}, h.Won t → h.lead t <+: h'.lead t
  lead_of_ne : ∀ {t c b}, c ≠ i → h.elected t c b → h'.lead t = h.lead t
  acked : ∀ {v t p}, h.acked v t p → h'.acked v t p

namespace Grows

variable {i : ν} {h h' h'' : History ν ε}

theorem refl (i : ν) (h : History ν ε) : Grows i h h where
  cur_le _ := Nat.le_refl _
  others _ := ⟨rfl, rfl⟩
  campaign := id
  grant := id
  grant_of_ne _ := id
  elected := id
  elected_of_ne _ := id
  lead _ := List.prefix_rfl
  lead_of_ne _ _ := rfl
  acked := id

theorem won (g : Grows i h h') {t : Nat} (hw : h.Won t) : h'.Won t := by
  obtain ⟨c, b, he⟩ := hw
  exact ⟨c, b, g.elected he⟩

theorem trans (g : Grows i h h') (g' : Grows i h' h'') : Grows i h h'' where
  cur_le v := (g.cur_le v).trans (g'.cur_le v)
  others hv := ⟨(g'.others hv).1.trans (g.others hv).1, (g'.others hv).2.trans (g.others hv).2⟩
  campaign hc := g'.campaign (g.campaign hc)
  grant hg := g'.grant (g.grant hg)
  grant_of_ne hv hg := g.grant_of_ne hv (g'.grant_of_ne hv hg)
  elected he := g'.elected (g.elected he)
  elected_of_ne hc he := g.elected_of_ne hc (g'.elected_of_ne hc he)
  lead hw := (g.lead hw).trans (g'.lead (g.won hw))
  lead_of_ne hc he := (g'.lead_of_ne hc (g.elected he)).trans (g.lead_of_ne hc he)
  acked ha := g'.acked (g.acked ha)

variable {τ : ε → Nat} {Q : Set ν → Prop}

theorem backed (g : Grows i h h') {l : List ε} (hl : h.Backed τ l) : h'.Backed τ l := by
  intro p e hp
  obtain ⟨h1, h2⟩ := hl p e hp
  exact ⟨h1.trans (g.lead h2), g.won h2⟩

theorem overwritten (g : Grows i h h') {t u u' : Nat} {p : List ε} (hu : u ≤ u')
    (ho : h.Overwritten t u p) : h'.Overwritten t u' p := by
  obtain ⟨t', c, b, h1, h2, h3, h4⟩ := ho
  exact ⟨t', c, b, h1, h2.trans hu, g.elected h3, h4⟩

theorem committed (g : Grows i h h') {t : Nat} {p : List ε} (hc : h.Committed τ Q t p) :
    h'.Committed τ Q t p := by
  obtain ⟨he, A, hA, hacks⟩ := hc
  refine ⟨he, A, hA, fun v hv => ?_⟩
  obtain ⟨p', ha, hp⟩ := hacks v hv
  exact ⟨p', g.acked ha, hp⟩

theorem settled (g : Grows i h h') {t t' : Nat} {p : List ε} (ht : t ≤ t')
    (hs : h.Settled τ Q t p) : h'.Settled τ Q t' p := by
  rcases hs with rfl | ⟨t₀, q, h0, hq, hp⟩
  · exact Or.inl rfl
  · exact Or.inr ⟨t₀, q, h0.trans ht, g.committed hq, hp⟩

/-- A vote stays vouched for as long as the voter acknowledges nothing new
in an earlier term. -/
theorem vouched (g : Grows i h h') {t : Nat} {b : List ε} {v : ν}
    (hnew : ∀ t₀ p, t₀ < t → h'.acked v t₀ p → h.acked v t₀ p)
    (hv : h.Vouched τ t b v) : h'.Vouched τ t b v := by
  obtain ⟨l, hup, hl, hk⟩ := hv
  refine ⟨l, hup, g.backed hl, fun t₀ p' h0 ha p hp => ?_⟩
  rcases hk t₀ p' h0 (hnew t₀ p' h0 ha) p hp with hh | hh
  · exact Or.inl hh
  · exact Or.inr (g.overwritten (Nat.le_refl _) hh)

end Grows

theorem Settled.mono {τ : ε → Nat} {Q : Set ν → Prop} {h : History ν ε} {t t' : Nat}
    {p : List ε} (hs : h.Settled τ Q t p) (ht : t ≤ t') : h.Settled τ Q t' p := by
  rcases hs with rfl | ⟨t₀, q, h0, hq, hp⟩
  · exact Or.inl rfl
  · exact Or.inr ⟨t₀, q, h0.trans ht, hq, hp⟩

theorem Settled.shorten {τ : ε → Nat} {Q : Set ν → Prop} {h : History ν ε} {t : Nat}
    {p p' : List ε} (hs : h.Settled τ Q t p) (hp : p' <+: p) : h.Settled τ Q t p' := by
  rcases hs with rfl | ⟨t₀, q, h0, hq, hpq⟩
  · exact Or.inl (List.prefix_nil.mp hp)
  · exact Or.inr ⟨t₀, q, h0, hq, hp.trans hpq⟩

/-! ## The empty history -/

/-- Nothing has happened: every node is in term 0 with an empty log. -/
def empty : History ν ε where
  cur _ := 0
  log _ := []
  campaign _ _ _ := False
  grant _ _ _ _ := False
  elected _ _ _ := False
  lead _ := []
  acked _ _ _ := False

theorem empty_ok {τ : ε → Nat} {Q : Set ν → Prop} : (empty : History ν ε).Ok τ Q where
  backed _ := Backed.nil
  log_le _ _ he := absurd he (by simp [empty])
  campaign_ok hc := hc.elim
  campaign_unique hc := hc.elim
  grant_ok hg := hg.elim
  grant_unique hg := hg.elim
  grant_keeps hg := hg.elim
  elected_ok he := he.elim
  elected_unique he := he.elim
  elected_votes he := he.elim
  acked_ok ha := ha.elim
  acked_keeps ha := ha.elim

section Moves

variable {τ : ε → Nat} {Q : Set ν → Prop} {h : History ν ε} {i : ν}

/-! ## Entering a term -/

/-- Node `i` enters term `t`. -/
def adopt (h : History ν ε) (i : ν) (t : Nat) : History ν ε :=
  { h with cur := Function.update h.cur i t }

theorem adopt_cur_le {t : Nat} (ht : h.cur i ≤ t) (v : ν) : h.cur v ≤ (h.adopt i t).cur v := by
  simp only [adopt, Function.update_apply]
  split
  · subst v; exact ht
  · exact Nat.le_refl _

theorem adopt_grows {t : Nat} (ht : h.cur i ≤ t) : Grows i h (h.adopt i t) where
  cur_le := adopt_cur_le ht
  others hv := ⟨Function.update_of_ne hv _ _, rfl⟩
  campaign := id
  grant := id
  grant_of_ne _ := id
  elected := id
  elected_of_ne _ := id
  lead _ := List.prefix_rfl
  lead_of_ne _ _ := rfl
  acked := id

theorem adopt_ok (ok : h.Ok τ Q) {t : Nat} (ht : h.cur i ≤ t) : (h.adopt i t).Ok τ Q :=
  have hle := adopt_cur_le ht
  { ok with
    log_le := fun v e he => (ok.log_le v e he).trans (hle v)
    campaign_ok := fun hc => ⟨(ok.campaign_ok hc).1.trans (hle _), (ok.campaign_ok hc).2⟩
    grant_ok := fun hg => ⟨(ok.grant_ok hg).1.trans (hle _), (ok.grant_ok hg).2⟩
    acked_ok := fun ha => ⟨(ok.acked_ok ha).1.trans (hle _), (ok.acked_ok ha).2⟩
    acked_keeps := fun {v _ _} ha p hp => (ok.acked_keeps ha p hp).imp id
      ((adopt_grows ht).overwritten (hle v)) }

/-! ## Elections -/

/-- Node `i` enters term `t`, stands for election there and votes for
itself. -/
def stand (h : History ν ε) (i : ν) (t : Nat) : History ν ε :=
  { h with
    cur := Function.update h.cur i t
    campaign := fun c u b => h.campaign c u b ∨ (c = i ∧ u = t ∧ b = h.log i)
    grant := fun v u c l => h.grant v u c l ∨ (v = i ∧ u = t ∧ c = i ∧ l = h.log i) }

theorem stand_grows {t : Nat} (ht : h.cur i < t) : Grows i h (h.stand i t) where
  cur_le := adopt_cur_le (Nat.le_of_lt ht)
  others hv := ⟨Function.update_of_ne hv _ _, rfl⟩
  campaign := Or.inl
  grant := Or.inl
  grant_of_ne hv hg := hg.resolve_right fun hh => hv hh.1
  elected := id
  elected_of_ne _ := id
  lead _ := List.prefix_rfl
  lead_of_ne _ _ := rfl
  acked := id

theorem upToDate_refl (l : List ε) : UpToDate τ l l := Or.inr ⟨rfl, Nat.le_refl _⟩

theorem stand_ok (ok : h.Ok τ Q) {t : Nat} (ht : h.cur i < t) : (h.stand i t).Ok τ Q := by
  have hle : ∀ v, h.cur v ≤ (h.stand i t).cur v := adopt_cur_le (Nat.le_of_lt ht)
  have hi : (h.stand i t).cur i = t := by simp [stand]
  have hlog : ∀ e ∈ h.log i, τ e < t := fun e he => Nat.lt_of_le_of_lt (ok.log_le i e he) ht
  -- no campaign or vote of `i` reaches the new term yet
  have hnoc : ∀ {b}, ¬ h.campaign i t b := fun hc => by
    have := (ok.campaign_ok hc).1
    omega
  have hnog : ∀ {c l}, ¬ h.grant i t c l := fun hg => by
    have := (ok.grant_ok hg).1
    omega
  exact
  { ok with
    log_le := fun v e he => (ok.log_le v e he).trans (hle v)
    campaign_ok := by
      rintro c u b (hc | ⟨rfl, rfl, rfl⟩)
      · exact ⟨(ok.campaign_ok hc).1.trans (hle _), (ok.campaign_ok hc).2⟩
      · exact ⟨Nat.le_of_eq hi.symm, hlog, ok.backed c⟩
    campaign_unique := by
      rintro c u b b' (hc | ⟨rfl, rfl, rfl⟩) (hc' | ⟨h1, h2, h3⟩)
      · exact ok.campaign_unique hc hc'
      · exact absurd (h1 ▸ h2 ▸ hc) hnoc
      · exact absurd hc' hnoc
      · exact h3.symm
    grant_ok := by
      rintro v u c l (hg | ⟨rfl, rfl, rfl, rfl⟩)
      · obtain ⟨h1, h2, b, h3, h4⟩ := ok.grant_ok hg
        exact ⟨h1.trans (hle _), h2, b, Or.inl h3, h4⟩
      · exact ⟨Nat.le_of_eq hi.symm, ok.backed _, h.log _, Or.inr ⟨rfl, rfl, rfl⟩,
          upToDate_refl _⟩
    grant_unique := by
      rintro v u c c' l l' (hg | ⟨rfl, rfl, rfl, rfl⟩) (hg' | ⟨h1, h2, h3, h4⟩)
      · exact ok.grant_unique hg hg'
      · exact absurd (h1 ▸ h2 ▸ hg) hnog
      · exact absurd hg' hnog
      · exact h3.symm
    grant_keeps := by
      rintro v u c l t₀ p' (hg | ⟨rfl, rfl, rfl, rfl⟩) h0 ha p hp
      · exact ok.grant_keeps hg h0 ha p hp
      · exact (ok.acked_keeps ha p hp).imp id
          ((stand_grows ht).overwritten (Nat.le_of_lt ht))
    elected_ok := fun he => ⟨Or.inl (ok.elected_ok he).1, (ok.elected_ok he).2⟩
    elected_votes := fun he => by
      obtain ⟨A, hA, hv⟩ := ok.elected_votes he
      exact ⟨A, hA, fun v hvA => ⟨(hv v hvA).1.imp fun _ => Or.inl, (hv v hvA).2⟩⟩
    acked_ok := fun ha => ⟨(ok.acked_ok ha).1.trans (hle _), (ok.acked_ok ha).2⟩
    acked_keeps := fun {v _ _} ha p hp => (ok.acked_keeps ha p hp).imp id
      ((stand_grows ht).overwritten (hle v)) }

/-- Node `i` votes for `c` in its current term. -/
def vote (h : History ν ε) (i c : ν) : History ν ε :=
  { h with
    grant := fun v u c' l => h.grant v u c' l ∨ (v = i ∧ u = h.cur i ∧ c' = c ∧ l = h.log i) }

theorem vote_grows (h : History ν ε) (i c : ν) : Grows i h (h.vote i c) :=
  { Grows.refl i h with
    grant := Or.inl
    grant_of_ne := fun hv hg => hg.resolve_right fun hh => hv hh.1 }

theorem vote_ok (ok : h.Ok τ Q) {c : ν} {b : List ε} (hc : h.campaign c (h.cur i) b)
    (hup : UpToDate τ b (h.log i))
    (hfree : ∀ c' l, h.grant i (h.cur i) c' l → c' = c) : (h.vote i c).Ok τ Q :=
  { ok with
    grant_ok := by
      rintro v u c' l (hg | ⟨rfl, rfl, rfl, rfl⟩)
      · exact ok.grant_ok hg
      · exact ⟨Nat.le_refl _, ok.backed v, b, hc, hup⟩
    grant_unique := by
      rintro v u c₁ c₂ l₁ l₂ (hg | ⟨rfl, rfl, rfl, rfl⟩) (hg' | ⟨h1, h2, h3, -⟩)
      · exact ok.grant_unique hg hg'
      · subst h1 h2 h3
        exact hfree c₁ l₁ hg
      · exact (hfree c₂ l₂ hg').symm
      · exact h3.symm
    grant_keeps := by
      rintro v u c' l t₀ p' (hg | ⟨rfl, rfl, rfl, rfl⟩) h0 ha p hp
      · exact ok.grant_keeps hg h0 ha p hp
      · exact ok.acked_keeps ha p hp
    elected_votes := fun he => by
      obtain ⟨A, hA, hv⟩ := ok.elected_votes he
      exact ⟨A, hA, fun v hvA => ⟨(hv v hvA).1.imp fun _ => Or.inl, (hv v hvA).2⟩⟩ }


/-- Node `i` wins its current term with the log `b` it stood with. -/
def elect (h : History ν ε) (i : ν) (b : List ε) : History ν ε :=
  { h with
    elected := fun t c b' => h.elected t c b' ∨ (t = h.cur i ∧ c = i ∧ b' = b)
    lead := Function.update h.lead (h.cur i) b }

theorem elect_lead {b : List ε} (hnew : ¬ h.Won (h.cur i)) {t : Nat} (hw : h.Won t) :
    (h.elect i b).lead t = h.lead t := by
  refine Function.update_of_ne ?_ _ _
  rintro rfl
  exact hnew hw

theorem elect_grows {b : List ε} (hnew : ¬ h.Won (h.cur i)) : Grows i h (h.elect i b) :=
  { Grows.refl i h with
    elected := Or.inl
    elected_of_ne := fun hc he => he.resolve_right fun hh => hc hh.2.1
    lead := fun hw => by rw [elect_lead hnew hw]
    lead_of_ne := fun {_ c b} _ he => elect_lead hnew ⟨c, b, he⟩ }

/-- The votes a quorum cast for `i` in a term that has no leader vouch for
the log `i` stood with. -/
theorem votes_vouch (ok : h.Ok τ Q) {t : Nat} {c : ν} {b : List ε} (hc : h.campaign c t b)
    (hnew : ¬ h.Won t) {A : Set ν} (hv : ∀ v ∈ A, ∃ l, h.grant v t c l) :
    ∀ v ∈ A, h.Vouched τ t b v := by
  intro v hvA
  obtain ⟨l, hg⟩ := hv v hvA
  obtain ⟨-, hl, b', hc', hup⟩ := ok.grant_ok hg
  obtain rfl := ok.campaign_unique hc hc'
  refine ⟨l, hup, hl, fun t₀ p' h0 ha p hp => ?_⟩
  rcases ok.grant_keeps hg h0 ha p hp with hh | ⟨t', c', b', h1, h2, h3, h4⟩
  · exact Or.inl hh
  · -- the leader that lacked the prefix cannot be that of `t`, which has none yet
    have hne : t' ≠ t := by
      rintro rfl
      exact hnew ⟨c', b', h3⟩
    exact Or.inr ⟨t', c', b', h1, by omega, h3, h4⟩

/-- A candidate with a quorum of votes has every prefix committed in an
earlier term. -/
theorem campaign_complete (inter : ∀ A B, Q A → Q B → ∃ v, v ∈ A ∧ v ∈ B) (ok : h.Ok τ Q)
    {t t' : Nat} {c : ν} {b p : List ε} (hc : h.campaign c t' b) (hnew : ¬ h.Won t')
    (hv : ∃ A, Q A ∧ ∀ v ∈ A, ∃ l, h.grant v t' c l) (hp : h.Committed τ Q t p)
    (htt : t < t') : p <+: b := by
  obtain ⟨-, hlt, hb⟩ := ok.campaign_ok hc
  obtain ⟨A, hA, hv⟩ := hv
  exact ok.vouched_complete inter htt hb hlt hp ⟨A, hA, votes_vouch ok hc hnew hv⟩
    (fun _ _ _ h1 _ h3 => ok.lead_complete inter hp h3 h1)

theorem elect_ok (ok : h.Ok τ Q) {b : List ε} (hc : h.campaign i (h.cur i) b)
    (hnew : ¬ h.Won (h.cur i))
    (hv : ∃ A, Q A ∧ ∀ v ∈ A, ∃ l, h.grant v (h.cur i) i l) : (h.elect i b).Ok τ Q := by
  have g := elect_grows (b := b) hnew
  exact
  { ok with
    backed := fun v => g.backed (ok.backed v)
    campaign_ok := fun hc' =>
      ⟨(ok.campaign_ok hc').1, (ok.campaign_ok hc').2.1, g.backed (ok.campaign_ok hc').2.2⟩
    grant_ok := fun hg => ⟨(ok.grant_ok hg).1, g.backed (ok.grant_ok hg).2.1, (ok.grant_ok hg).2.2⟩
    grant_keeps := fun hg h0 ha p hp => (ok.grant_keeps hg h0 ha p hp).imp id
      (g.overwritten (Nat.le_refl _))
    elected_ok := by
      rintro t c b' (he | ⟨rfl, rfl, rfl⟩)
      · rw [elect_lead hnew ⟨c, b', he⟩]
        exact ok.elected_ok he
      · exact ⟨hc, [], by simp [elect], by simp⟩
    elected_unique := by
      rintro t c c' b₁ b₂ (he | ⟨rfl, rfl, rfl⟩) (he' | ⟨h1, h2, h3⟩)
      · exact ok.elected_unique he he'
      · exact absurd ⟨c, b₁, h1 ▸ he⟩ hnew
      · exact absurd ⟨c', b₂, he'⟩ hnew
      · exact ⟨h2.symm, h3.symm⟩
    elected_votes := by
      rintro t c b' (he | ⟨rfl, rfl, rfl⟩)
      · obtain ⟨A, hA, hvA⟩ := ok.elected_votes he
        exact ⟨A, hA, fun v hv => ⟨(hvA v hv).1, g.vouched (fun _ _ _ => id) (hvA v hv).2⟩⟩
      · obtain ⟨A, hA, hvA⟩ := hv
        have hvouch := votes_vouch ok hc hnew hvA
        exact ⟨A, hA, fun v hv => ⟨hvA v hv, g.vouched (fun _ _ _ => id) (hvouch v hv)⟩⟩
    acked_ok := fun ha => by
      rw [elect_lead hnew (ok.acked_ok ha).2.2]
      exact ⟨(ok.acked_ok ha).1, (ok.acked_ok ha).2.1, g.won (ok.acked_ok ha).2.2⟩
    acked_keeps := fun ha p hp => (ok.acked_keeps ha p hp).imp id
      (g.overwritten (Nat.le_refl _)) }

/-- **One leader a term.** A candidate with a quorum of votes finds its term
without a leader, or won it itself before. -/
theorem quorum_not_won (inter : ∀ A B, Q A → Q B → ∃ v, v ∈ A ∧ v ∈ B) (ok : h.Ok τ Q)
    {t : Nat} {c : ν} (hv : ∃ A, Q A ∧ ∀ v ∈ A, ∃ l, h.grant v t c l)
    (hself : ∀ b, ¬ h.elected t c b) : ¬ h.Won t := by
  rintro ⟨c', b, he⟩
  obtain ⟨A, hA, hvA⟩ := hv
  obtain ⟨B, hB, hvB⟩ := ok.elected_votes he
  obtain ⟨v, hv1, hv2⟩ := inter A B hA hB
  obtain ⟨l, hg⟩ := hvA v hv1
  obtain ⟨l', hg'⟩ := (hvB v hv2).1
  obtain rfl := ok.grant_unique hg hg'
  exact hself b he

/-! ## Writing and acknowledging -/

/-- Node `i`, the leader of its term, appends the entry `e` and counts
itself as a replica of it. -/
def append (h : History ν ε) (i : ν) (e : ε) : History ν ε :=
  { h with
    log := Function.update h.log i (h.log i ++ [e])
    lead := Function.update h.lead (h.cur i) (h.log i ++ [e])
    acked := fun v t p => h.acked v t p ∨ (v = i ∧ t = h.cur i ∧ p = h.log i ++ [e]) }

theorem append_grows (ok : h.Ok τ Q) {b : List ε} {e : ε} (hw : h.elected (h.cur i) i b)
    (hlog : h.log i = h.lead (h.cur i)) : Grows i h (h.append i e) :=
  { Grows.refl i h with
    others := fun hv => ⟨rfl, Function.update_of_ne hv _ _⟩
    lead := fun {t} _ => by
      simp only [append, Function.update_apply]
      split
      · subst t
        rw [hlog]
        exact List.prefix_append _ _
      · exact List.prefix_rfl
    lead_of_ne := fun {t c b'} hc he => by
      refine Function.update_of_ne ?_ _ _
      rintro rfl
      exact hc (ok.elected_unique he hw).1
    acked := Or.inl }

theorem append_ok (ok : h.Ok τ Q) {b : List ε} {e : ε} (hw : h.elected (h.cur i) i b)
    (hlog : h.log i = h.lead (h.cur i)) (he : τ e = h.cur i) : (h.append i e).Ok τ Q := by
  have g := append_grows (e := e) ok hw hlog
  have hwon : h.Won (h.cur i) := ⟨i, b, hw⟩
  have hlead : (h.append i e).lead (h.cur i) = h.log i ++ [e] := by simp [append]
  have hself : (h.append i e).log i = h.log i ++ [e] := by simp [append]
  exact
  { ok with
    backed := fun v => by
      by_cases hv : v = i
      · subst v
        intro p x hp
        rw [hself] at hp
        rcases List.prefix_concat_iff.mp hp with hh | hh
        · obtain ⟨rfl, hx⟩ := List.append_inj' hh rfl
          obtain rfl : x = e := by simpa using hx
          rw [he, hlead]
          exact ⟨List.prefix_rfl, g.won hwon⟩
        · exact g.backed (ok.backed i) p x hh
      · rw [(g.others hv).2]
        exact g.backed (ok.backed v)
    log_le := fun v x hx => by
      by_cases hv : v = i
      · subst v
        rw [hself, List.mem_append, List.mem_singleton] at hx
        rcases hx with hx | rfl
        · exact ok.log_le i x hx
        · exact Nat.le_of_eq he
      · rw [(g.others hv).2] at hx
        exact ok.log_le v x hx
    campaign_ok := fun hc =>
      ⟨(ok.campaign_ok hc).1, (ok.campaign_ok hc).2.1, g.backed (ok.campaign_ok hc).2.2⟩
    grant_ok := fun hg => ⟨(ok.grant_ok hg).1, g.backed (ok.grant_ok hg).2.1, (ok.grant_ok hg).2.2⟩
    grant_keeps := by
      rintro v t c l t₀ p' hg h0 (ha | ⟨rfl, rfl, rfl⟩) p hp
      · exact (ok.grant_keeps hg h0 ha p hp).imp id (g.overwritten (Nat.le_refl _))
      · have := (ok.grant_ok hg).1
        omega
    elected_ok := fun {t c b'} hel => by
      obtain ⟨hc, s, hs, hst⟩ := ok.elected_ok hel
      by_cases ht : t = h.cur i
      · subst t
        refine ⟨hc, s ++ [e], by rw [hlead, hlog, hs, List.append_assoc], fun x hx => ?_⟩
        rcases List.mem_append.mp hx with hx | hx
        · exact hst x hx
        · exact (List.mem_singleton.mp hx) ▸ he
      · exact ⟨hc, s, by rw [← hs]; exact Function.update_of_ne ht _ _, hst⟩
    elected_votes := fun hel => by
      obtain ⟨A, hA, hvA⟩ := ok.elected_votes hel
      refine ⟨A, hA, fun v hv => ⟨(hvA v hv).1, g.vouched ?_ (hvA v hv).2⟩⟩
      rintro t₀ p h0 (ha | ⟨rfl, rfl, rfl⟩)
      · exact ha
      · obtain ⟨l, hg⟩ := (hvA v hv).1
        have := (ok.grant_ok hg).1
        omega
    acked_ok := by
      rintro v t p (ha | ⟨rfl, rfl, rfl⟩)
      · obtain ⟨h1, h2, h3⟩ := ok.acked_ok ha
        exact ⟨h1, h2.trans (g.lead h3), g.won h3⟩
      · exact ⟨Nat.le_refl _, by rw [hlead], g.won hwon⟩
    acked_keeps := by
      rintro v t p' (ha | ⟨rfl, rfl, rfl⟩) p hp
      · rcases ok.acked_keeps ha p hp with hh | hh
        · left
          by_cases hv : v = i
          · subst v
            exact hh.trans (hself ▸ List.prefix_append _ _)
          · rwa [(g.others hv).2]
        · exact Or.inr (g.overwritten (Nat.le_refl _) hh)
      · exact Or.inl (hself ▸ hp) }

/-- Node `i` acknowledges, in its current term, holding the prefix `q`. -/
def ack (h : History ν ε) (i : ν) (q : List ε) : History ν ε :=
  { h with acked := fun v t p => h.acked v t p ∨ (v = i ∧ t = h.cur i ∧ p = q) }

theorem ack_grows (h : History ν ε) (i : ν) (q : List ε) : Grows i h (h.ack i q) :=
  { Grows.refl i h with acked := Or.inl }

theorem ack_ok (ok : h.Ok τ Q) {q : List ε} (hq : q <+: h.log i) (hl : q <+: h.lead (h.cur i))
    (hw : h.Won (h.cur i)) : (h.ack i q).Ok τ Q :=
  have g := ack_grows h i q
  { ok with
    grant_keeps := by
      rintro v t c l t₀ p' hg h0 (ha | ⟨rfl, rfl, rfl⟩) p hp
      · exact ok.grant_keeps hg h0 ha p hp
      · have := (ok.grant_ok hg).1
        omega
    elected_votes := fun hel => by
      obtain ⟨A, hA, hvA⟩ := ok.elected_votes hel
      refine ⟨A, hA, fun v hv => ⟨(hvA v hv).1, g.vouched ?_ (hvA v hv).2⟩⟩
      rintro t₀ p h0 (ha | ⟨rfl, rfl, rfl⟩)
      · exact ha
      · obtain ⟨l, hg⟩ := (hvA v hv).1
        have := (ok.grant_ok hg).1
        omega
    acked_ok := by
      rintro v t p (ha | ⟨rfl, rfl, rfl⟩)
      · exact ok.acked_ok ha
      · exact ⟨Nat.le_refl _, hl, hw⟩
    acked_keeps := by
      rintro v t p' (ha | ⟨rfl, rfl, rfl⟩) p hp
      · exact ok.acked_keeps ha p hp
      · exact Or.inl (hp.trans hq) }

/-! ## Replacing a log -/

/-- Node `i` makes sure its log starts with `q`: a log that lacks this prefix
is replaced by it. -/
def overwrite (h : History ν ε) (i : ν) (q : List ε) : History ν ε :=
  { h with log := Function.update h.log i (if q <+: h.log i then h.log i else q) }

theorem overwrite_grows (h : History ν ε) (i : ν) (q : List ε) : Grows i h (h.overwrite i q) :=
  { Grows.refl i h with others := fun hv => ⟨rfl, Function.update_of_ne hv _ _⟩ }

theorem overwrite_log (h : History ν ε) (i : ν) (q : List ε) :
    (h.overwrite i q).log i = if q <+: h.log i then h.log i else q := by
  simp [overwrite]

theorem prefix_overwrite (h : History ν ε) (i : ν) (q : List ε) :
    q <+: (h.overwrite i q).log i := by
  rw [overwrite_log]
  split
  · assumption
  · exact List.prefix_rfl

/-- What any replacement must ensure: the new log is backed, and of what the
node acknowledged only prefixes that a later leader lacked get lost. -/
theorem overwrite_ok (ok : h.Ok τ Q) {q : List ε} (hq : h.Backed τ q)
    (hle : ∀ e ∈ q, τ e ≤ h.cur i)
    (hkeep : ∀ t p' p, h.acked i t p' → p <+: p' → p <+: h.log i → ¬ q <+: h.log i →
      p <+: q ∨ h.Overwritten t (h.cur i) p) : (h.overwrite i q).Ok τ Q :=
  have g := overwrite_grows h i q
  { ok with
    backed := fun v => by
      by_cases hv : v = i
      · subst v
        rw [overwrite_log]
        split
        · exact ok.backed i
        · exact hq
      · rw [(g.others hv).2]
        exact ok.backed v
    log_le := fun v e he => by
      by_cases hv : v = i
      · subst v
        rw [overwrite_log] at he
        split at he
        · exact ok.log_le i e he
        · exact hle e he
      · rw [(g.others hv).2] at he
        exact ok.log_le v e he
    acked_keeps := fun {v t p'} ha p hp => by
      rcases ok.acked_keeps ha p hp with hh | hh
      · by_cases hv : v = i
        · subst v
          rw [overwrite_log]
          split
          · exact Or.inl hh
          · exact hkeep t p' p ha hp hh (by assumption)
        · left
          rwa [(g.others hv).2]
      · exact Or.inr hh }

/-- Following the leader of the current term keeps the invariant. -/
theorem follow_ok (ok : h.Ok τ Q) {q : List ε} (hl : q <+: h.lead (h.cur i))
    (hw : h.Won (h.cur i)) : (h.overwrite i q).Ok τ Q := by
  refine overwrite_ok ok ((ok.lead_backed hw).shorten hl)
    (fun e he => ok.lead_le hw e (hl.subset he)) ?_
  intro t p' p ha hp hpl hql
  by_cases hpq : p <+: q
  · exact Or.inl hpq
  · right
    -- the prefix is no part of the current leader's log, so its term is older
    have hno : ¬ p <+: h.lead (h.cur i) := fun hh => by
      rcases List.prefix_or_prefix_of_prefix hh hl with h1 | h1
      · exact hpq h1
      · exact hql (h1.trans hpl)
    obtain ⟨h1, h2, -⟩ := ok.acked_ok ha
    have hne : t ≠ h.cur i := by
      rintro rfl
      exact hno (hp.trans h2)
    obtain ⟨c, b, he⟩ := hw
    exact ⟨h.cur i, c, b, by omega, Nat.le_refl _, he,
      fun hb => hno (hb.trans (ok.elected_base he))⟩

/-- Installing a settled prefix keeps the invariant. -/
theorem install_ok (inter : ∀ A B, Q A → Q B → ∃ v, v ∈ A ∧ v ∈ B) (ok : h.Ok τ Q)
    {q : List ε} (hs : h.Settled τ Q (h.cur i) q) : (h.overwrite i q).Ok τ Q := by
  rcases hs with rfl | ⟨t₀, q', h0, hq', hqq⟩
  · exact overwrite_ok ok Backed.nil (by simp) (fun _ _ _ _ _ _ hn => absurd List.nil_prefix hn)
  · obtain ⟨hql, hw⟩ := ok.committed_lead (fun _ => Ok.quorum_mem inter) hq'
    refine overwrite_ok ok ((ok.lead_backed hw).shorten (hqq.trans hql))
      (fun e he => (ok.lead_le hw e (hql.subset (hqq.subset he))).trans h0) ?_
    intro t p' p ha hp hpl hqn
    obtain ⟨h1, h2, hwt⟩ := ok.acked_ok ha
    -- whatever is comparable with `q` is part of it, since the log lacks `q`
    have hcmp : p <+: q ∨ q <+: p → p <+: q := fun hh =>
      hh.resolve_right fun hh' => hqn (hh'.trans hpl)
    rcases Nat.lt_or_ge t t₀ with hlt | hge
    · obtain ⟨c, b, he⟩ := hw
      by_cases hpb : p <+: b
      · exact Or.inl (hcmp (List.prefix_or_prefix_of_prefix
          (hpb.trans (ok.elected_base he)) (hqq.trans hql)))
      · exact Or.inr ⟨t₀, c, b, hlt, h0, he, hpb⟩
    · exact Or.inl (hcmp (List.prefix_or_prefix_of_prefix (hp.trans h2)
        (hqq.trans (ok.committed_prefix_lead inter hq' hwt hge))))

end Moves

end

end History

end QuorumLog

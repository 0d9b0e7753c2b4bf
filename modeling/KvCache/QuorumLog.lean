import Mathlib.Data.List.Basic
import Mathlib.Data.List.Infix
import Mathlib.Data.Set.Basic

/-!
# Replicated logs with elected terms: history and safety

A leader-based replicated log, without messages, timers or compaction.
Nodes are any type `ν`, log entries any type `ε` that carries a term
(`τ`), and a quorum is any family of node sets of which every two meet.

A `History` holds what each node has now (term and whole log) together
with what has *ever* happened: who stood for election and with which
log, who granted a vote and with which log, who won, which prefixes of a
leader's log were acknowledged. Events are never forgotten, so a fact
about "an earlier acknowledgement" or "a later leader" is a fact about
one history and needs no induction over runs.

`History.Ok` is the invariant. Its consequences are the four classical
laws: one leader a term (`elected_unique`), log matching
(`Backed.matching`), leader completeness (`Ok.lead_complete`) and
agreement of committed prefixes (`Ok.committed_comparable`). The moves
that keep the invariant are in `QuorumLogMoves`.
-/

namespace QuorumLog

variable {ν ε : Type}

/-- What the nodes hold now and what has happened so far. -/
structure History (ν ε : Type) where
  /-- the term each node is in -/
  cur : ν → Nat
  /-- each node's whole log, from the first entry on -/
  log : ν → List ε
  /-- `campaign c t b`: `c` stood for election in term `t` with log `b` -/
  campaign : ν → Nat → List ε → Prop
  /-- `grant v t c l`: `v`, whose log was `l`, voted for `c` in term `t` -/
  grant : ν → Nat → ν → List ε → Prop
  /-- `elected t c b`: `c` won term `t` with log `b` -/
  elected : Nat → ν → List ε → Prop
  /-- the log of the leader of each term, as far as it has been written -/
  lead : Nat → List ε
  /-- `acked v t p`: in term `t`, `v` acknowledged holding the prefix `p` -/
  acked : ν → Nat → List ε → Prop

/-- The term of the last entry, 0 for the empty log. -/
def lastTerm (τ : ε → Nat) (l : List ε) : Nat := (l.getLast?.map τ).getD 0

@[simp] theorem lastTerm_nil (τ : ε → Nat) : lastTerm τ ([] : List ε) = 0 := rfl

@[simp] theorem lastTerm_concat (τ : ε → Nat) (p : List ε) (e : ε) :
    lastTerm τ (p ++ [e]) = τ e := by
  simp [lastTerm]

/-- The log `b` is at least as up-to-date as `l`: a higher last term, or
the same one and at least as long. -/
def UpToDate (τ : ε → Nat) (b l : List ε) : Prop :=
  lastTerm τ l < lastTerm τ b ∨ (lastTerm τ b = lastTerm τ l ∧ l.length ≤ b.length)

/-- A nonempty list is a prefix followed by its last entry. -/
theorem eq_nil_or_concat (l : List ε) : l = [] ∨ ∃ p e, l = p ++ [e] := by
  rcases List.eq_nil_or_concat l with h | ⟨p, e, h⟩
  · exact Or.inl h
  · exact Or.inr ⟨p, e, by simpa using h⟩

namespace History

/-- Some node won term `t`. -/
def Won (h : History ν ε) (t : Nat) : Prop := ∃ c b, h.elected t c b

/-- Every entry of `l` was written by the leader of its term, on top of
exactly the entries that precede it in `l`. -/
def Backed (τ : ε → Nat) (h : History ν ε) (l : List ε) : Prop :=
  ∀ p e, p ++ [e] <+: l → p ++ [e] <+: h.lead (τ e) ∧ h.Won (τ e)

/-- Some leader elected after term `t` and no later than term `u` did not
have the prefix `p`. -/
def Overwritten (h : History ν ε) (t u : Nat) (p : List ε) : Prop :=
  ∃ t' c b, t < t' ∧ t' ≤ u ∧ h.elected t' c b ∧ ¬ p <+: b

/-- `p` ends in an entry of term `t` and a quorum acknowledged it in that
term. -/
def Committed (τ : ε → Nat) (Q : Set ν → Prop) (h : History ν ε) (t : Nat)
    (p : List ε) : Prop :=
  (∃ q e, p = q ++ [e] ∧ τ e = t) ∧
    ∃ A, Q A ∧ ∀ v ∈ A, ∃ p', h.acked v t p' ∧ p <+: p'

/-- `p` is empty or part of a prefix committed in a term up to `t`. -/
def Settled (τ : ε → Nat) (Q : Set ν → Prop) (h : History ν ε) (t : Nat)
    (p : List ε) : Prop :=
  p = [] ∨ ∃ t₀ q, t₀ ≤ t ∧ h.Committed τ Q t₀ q ∧ p <+: q

/-- The vote of `v` for the log `b` in term `t`, with what it proves about
everything `v` acknowledged in earlier terms: `v` still had it, or a leader
elected in between did not. -/
def Vouched (τ : ε → Nat) (h : History ν ε) (t : Nat) (b : List ε) (v : ν) : Prop :=
  ∃ l, UpToDate τ b l ∧ h.Backed τ l ∧
    ∀ t₀ p', t₀ < t → h.acked v t₀ p' → ∀ p, p <+: p' →
      p <+: l ∨ h.Overwritten t₀ (t - 1) p

/-- The invariant of a history. -/
structure Ok (τ : ε → Nat) (Q : Set ν → Prop) (h : History ν ε) : Prop where
  backed : ∀ v, h.Backed τ (h.log v)
  log_le : ∀ v, ∀ e ∈ h.log v, τ e ≤ h.cur v
  campaign_ok : ∀ {c t b}, h.campaign c t b →
    t ≤ h.cur c ∧ (∀ e ∈ b, τ e < t) ∧ h.Backed τ b
  campaign_unique : ∀ {c t b b'}, h.campaign c t b → h.campaign c t b' → b = b'
  grant_ok : ∀ {v t c l}, h.grant v t c l →
    t ≤ h.cur v ∧ h.Backed τ l ∧ ∃ b, h.campaign c t b ∧ UpToDate τ b l
  grant_unique : ∀ {v t c c' l l'}, h.grant v t c l → h.grant v t c' l' → c = c'
  grant_keeps : ∀ {v t c l t₀ p'}, h.grant v t c l → t₀ < t → h.acked v t₀ p' →
    ∀ p, p <+: p' → p <+: l ∨ h.Overwritten t₀ t p
  elected_ok : ∀ {t c b}, h.elected t c b →
    h.campaign c t b ∧ ∃ s, h.lead t = b ++ s ∧ ∀ e ∈ s, τ e = t
  elected_unique : ∀ {t c c' b b'}, h.elected t c b → h.elected t c' b' → c = c' ∧ b = b'
  elected_votes : ∀ {t c b}, h.elected t c b →
    ∃ A, Q A ∧ ∀ v ∈ A, (∃ l, h.grant v t c l) ∧ h.Vouched τ t b v
  acked_ok : ∀ {v t p}, h.acked v t p → t ≤ h.cur v ∧ p <+: h.lead t ∧ h.Won t
  acked_keeps : ∀ {v t p'}, h.acked v t p' →
    ∀ p, p <+: p' → p <+: h.log v ∨ h.Overwritten t (h.cur v) p

/-! ## Backed logs -/

section Backed

variable {τ : ε → Nat} {h : History ν ε}

theorem Backed.nil : h.Backed τ [] := by
  intro p e hp
  simp at hp

theorem Backed.shorten {l l' : List ε} (hl : h.Backed τ l) (hp : l' <+: l) : h.Backed τ l' :=
  fun p e hpe => hl p e (hpe.trans hp)

/-- **Log matching.** Two backed logs that carry entries of one term at one
position agree there and on everything before. -/
theorem Backed.matching {l l' p p' : List ε} {e e' : ε} (hl : h.Backed τ l)
    (hl' : h.Backed τ l') (hp : p ++ [e] <+: l) (hp' : p' ++ [e'] <+: l')
    (hlen : p.length = p'.length) (ht : τ e = τ e') : p ++ [e] = p' ++ [e'] := by
  have h1 := (hl p e hp).1
  have h2 := (hl' p' e' hp').1
  rw [← ht] at h2
  exact (List.prefix_of_prefix_length_le h1 h2 (by simp [hlen])).eq_of_length (by simp [hlen])

/-- A backed log is a prefix of the log of the leader of its last term. -/
theorem Backed.prefix_lead {l : List ε} (hl : h.Backed τ l) (hne : l ≠ []) :
    l <+: h.lead (lastTerm τ l) ∧ h.Won (lastTerm τ l) := by
  rcases eq_nil_or_concat l with rfl | ⟨p, e, rfl⟩
  · exact absurd rfl hne
  · simpa using hl p e (List.prefix_rfl)

/-- Two backed logs with the same last term are prefixes of one another,
the shorter of the longer. -/
theorem Backed.prefix_of_lastTerm {l b : List ε} (hl : h.Backed τ l) (hb : h.Backed τ b)
    (hne : l ≠ []) (ht : lastTerm τ b = lastTerm τ l) (hlen : l.length ≤ b.length) :
    l <+: b := by
  have hbne : b ≠ [] := by
    rintro rfl
    exact hne (List.length_eq_zero_iff.mp (Nat.le_zero.mp hlen))
  have h1 := (hl.prefix_lead hne).1
  have h2 := (hb.prefix_lead hbne).1
  rw [ht] at h2
  exact List.prefix_of_prefix_length_le h1 h2 hlen

end Backed

/-! ## Consequences of the invariant -/

namespace Ok

variable {τ : ε → Nat} {Q : Set ν → Prop} {h : History ν ε}

theorem elected_base (ok : h.Ok τ Q) {t : Nat} {c : ν} {b : List ε}
    (he : h.elected t c b) : b <+: h.lead t := by
  obtain ⟨-, s, hs, -⟩ := ok.elected_ok he
  exact hs ▸ List.prefix_append b s

theorem elected_cur (ok : h.Ok τ Q) {t : Nat} {c : ν} {b : List ε}
    (he : h.elected t c b) : t ≤ h.cur c :=
  (ok.campaign_ok (ok.elected_ok he).1).1

/-- Entries of the log of the leader of term `t` have terms up to `t`. -/
theorem lead_le (ok : h.Ok τ Q) {t : Nat} (hw : h.Won t) : ∀ e ∈ h.lead t, τ e ≤ t := by
  obtain ⟨c, b, he⟩ := hw
  obtain ⟨hc, s, hs, hst⟩ := ok.elected_ok he
  intro e hm
  rw [hs, List.mem_append] at hm
  rcases hm with hb | hs'
  · exact Nat.le_of_lt ((ok.campaign_ok hc).2.1 e hb)
  · exact Nat.le_of_eq (hst e hs')

theorem lead_backed (ok : h.Ok τ Q) {t : Nat} (hw : h.Won t) : h.Backed τ (h.lead t) := by
  obtain ⟨c, b, he⟩ := hw
  obtain ⟨hc, s, hs, hst⟩ := ok.elected_ok he
  intro p e hp
  rcases Nat.lt_or_ge p.length b.length with hlt | hge
  · refine (ok.campaign_ok hc).2.2 p e ?_
    exact List.prefix_of_prefix_length_le hp (ok.elected_base he) (by simpa using Nat.succ_le_of_lt hlt)
  · -- past the base every entry is the leader's own
    have hmem : e ∈ s := by
      have hpb : b <+: p :=
        List.prefix_of_prefix_length_le (ok.elected_base he)
          ((List.prefix_append p [e]).trans hp) hge
      obtain ⟨q, rfl⟩ := hpb
      rw [hs, List.append_assoc, List.prefix_append_right_inj] at hp
      exact hp.subset (by simp)
    rw [hst e hmem]
    exact ⟨hp, c, b, he⟩

theorem committed_lead (ok : h.Ok τ Q) (hne : ∀ A, Q A → ∃ v, v ∈ A) {t : Nat} {p : List ε}
    (hc : h.Committed τ Q t p) : p <+: h.lead t ∧ h.Won t := by
  obtain ⟨-, A, hA, hacks⟩ := hc
  obtain ⟨v, hv⟩ := hne A hA
  obtain ⟨p', hack, hpp⟩ := hacks v hv
  exact ⟨hpp.trans (ok.acked_ok hack).2.1, (ok.acked_ok hack).2.2⟩

section Completeness

variable (inter : ∀ A B, Q A → Q B → ∃ v, v ∈ A ∧ v ∈ B)
include inter

theorem quorum_mem {A : Set ν} (hA : Q A) : ∃ v, v ∈ A := by
  obtain ⟨v, hv, -⟩ := inter A A hA hA
  exact ⟨v, hv⟩

/-- The core of leader completeness: if every leader elected between the
terms `t` and `t'` has the prefix committed in `t`, then a quorum that
vouches for the log `b` in `t'` forces `b` to have it as well. One voter
also acknowledged the prefix; it still had it when it voted, and `b` was at
least as up-to-date. -/
theorem vouched_complete (ok : h.Ok τ Q) {t t' : Nat} {b p : List ε} (htt : t < t')
    (hb : h.Backed τ b) (hlt : ∀ e ∈ b, τ e < t') (hp : h.Committed τ Q t p)
    (hvotes : ∃ A, Q A ∧ ∀ v ∈ A, h.Vouched τ t' b v)
    (ih : ∀ u c b', t < u → u < t' → h.elected u c b' → p <+: b') : p <+: b := by
  obtain ⟨hpl, hw⟩ := ok.committed_lead (fun _ => quorum_mem inter) hp
  obtain ⟨⟨q, e, rfl, het⟩, A, hA, hacks⟩ := hp
  obtain ⟨B, hB, hvouch⟩ := hvotes
  obtain ⟨v, hvA, hvB⟩ := inter A B hA hB
  obtain ⟨p', hack, hpp⟩ := hacks v hvA
  obtain ⟨l, hup, hl, hkeep⟩ := hvouch v hvB
  have hpl' : q ++ [e] <+: l := by
    rcases hkeep t p' htt hack _ hpp with hh | ⟨u, c, b', h1, h2, h3, h4⟩
    · exact hh
    · exact absurd (ih u c b' h1 (by omega) h3) h4
  have hlne : l ≠ [] := by
    rintro rfl
    simp at hpl'
  have hpe : ∀ x ∈ q ++ [e], τ x ≤ t := fun x hx => ok.lead_le hw x (hpl.subset hx)
  rcases hup with hgt | ⟨heq, hlen⟩
  · -- the last entry of `b` was written by a leader after `t`, which had the prefix
    have hbne : b ≠ [] := by
      rintro rfl
      simp at hgt
    obtain ⟨hbl, c, b', hel⟩ := hb.prefix_lead hbne
    have hlast : lastTerm τ b < t' := by
      rcases eq_nil_or_concat b with rfl | ⟨p₀, e₀, rfl⟩
      · exact absurd rfl hbne
      · simpa using hlt e₀ (by simp)
    have htl : t ≤ lastTerm τ l := by
      obtain ⟨hll, hwl⟩ := hl.prefix_lead hlne
      have := ok.lead_le hwl e (hll.subset (hpl'.subset (by simp)))
      omega
    have hpb' := ih _ c b' (by omega) hlast hel
    have hplead := hpb'.trans (ok.elected_base hel)
    rcases List.prefix_or_prefix_of_prefix hplead hbl with hh | hh
    · exact hh
    · -- otherwise the last entry of `b` would be part of the prefix
      rcases eq_nil_or_concat b with rfl | ⟨p₀, e₀, rfl⟩
      · exact absurd rfl hbne
      · have := hpe e₀ (hh.subset (by simp))
        rw [lastTerm_concat] at hgt
        omega
  · exact hpl'.trans (hl.prefix_of_lastTerm hb hlne heq hlen)

/-- **Leader completeness.** A prefix committed in term `t` is part of the
log every leader of a higher term was elected with. -/
theorem lead_complete (ok : h.Ok τ Q) {t : Nat} {p : List ε} (hp : h.Committed τ Q t p) :
    ∀ {t' c b}, h.elected t' c b → t < t' → p <+: b := by
  intro t'
  induction t' using Nat.strong_induction_on with
  | _ t' ih =>
    intro c b he htt
    obtain ⟨-, hlt, hb⟩ := ok.campaign_ok (ok.elected_ok he).1
    obtain ⟨A, hA, hv⟩ := ok.elected_votes he
    exact ok.vouched_complete inter htt hb hlt hp ⟨A, hA, fun v hvA => (hv v hvA).2⟩
      (fun u c' b' h1 h2 h3 => ih u h2 h3 h1)

/-- A committed prefix is part of the log of every leader from its own term
on. -/
theorem committed_prefix_lead (ok : h.Ok τ Q) {t t' : Nat} {p : List ε}
    (hp : h.Committed τ Q t p) (hw : h.Won t') (htt : t ≤ t') : p <+: h.lead t' := by
  obtain ⟨c, b, he⟩ := hw
  rcases Nat.lt_or_eq_of_le htt with hlt | rfl
  · exact (ok.lead_complete inter hp he hlt).trans (ok.elected_base he)
  · exact (ok.committed_lead (fun _ => quorum_mem inter) hp).1

theorem settled_prefix_lead (ok : h.Ok τ Q) {t t' : Nat} {p : List ε}
    (hp : h.Settled τ Q t p) (hw : h.Won t') (htt : t ≤ t') : p <+: h.lead t' := by
  rcases hp with rfl | ⟨t₀, q, h0, hq, hpq⟩
  · exact List.nil_prefix
  · exact hpq.trans (ok.committed_prefix_lead inter hq hw (h0.trans htt))

/-- **Agreement.** Any two committed prefixes are prefixes of one another. -/
theorem committed_comparable (ok : h.Ok τ Q) {t t' : Nat} {p p' : List ε}
    (hp : h.Committed τ Q t p) (hp' : h.Committed τ Q t' p') : p <+: p' ∨ p' <+: p := by
  have hne : ∀ A, Q A → ∃ v, v ∈ A := fun _ => quorum_mem inter
  obtain ⟨h1, hw1⟩ := ok.committed_lead hne hp
  obtain ⟨h2, hw2⟩ := ok.committed_lead hne hp'
  rcases Nat.le_total t t' with hle | hle
  · exact List.prefix_or_prefix_of_prefix (ok.committed_prefix_lead inter hp hw2 hle) h2
  · exact List.prefix_or_prefix_of_prefix h1 (ok.committed_prefix_lead inter hp' hw1 hle)

theorem settled_comparable (ok : h.Ok τ Q) {t t' : Nat} {p p' : List ε}
    (hp : h.Settled τ Q t p) (hp' : h.Settled τ Q t' p') : p <+: p' ∨ p' <+: p := by
  rcases hp with rfl | ⟨t₀, q, -, hq, hpq⟩
  · exact Or.inl List.nil_prefix
  · rcases hp' with rfl | ⟨t₁, q', -, hq', hpq'⟩
    · exact Or.inr List.nil_prefix
    · rcases ok.committed_comparable inter hq hq' with hh | hh
      · exact List.prefix_or_prefix_of_prefix (hpq.trans hh) hpq'
      · exact List.prefix_or_prefix_of_prefix hpq (hpq'.trans hh)

end Completeness

end Ok

end History

end QuorumLog

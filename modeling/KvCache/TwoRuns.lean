import KvCache.StateWp

/-!
# Two computations side by side

`both x y Q R s t` runs `x` from `s` and `y` from `t`: they return together,
with values and states in `Q`, or raise the same together, with states in
`R`. It is the two-run companion of `wp` and has the same rules, so that a
proof that relates two runs of a method reads the method once.
-/

namespace StateWp

/-- Both return, in `Q`, or both raise the same, in `R`. -/
def both {ε σ τ α β : Type} (x : EStateM ε σ α) (y : EStateM ε τ β)
    (Q : α → β → σ → τ → Prop) (R : σ → τ → Prop) (s : σ) (t : τ) : Prop :=
  match x.run s, y.run t with
  | .ok a s', .ok b t' => Q a b s' t'
  | .error e s', .error e' t' => e = e' ∧ R s' t'
  | _, _ => False

section Rules

variable {ε σ τ α β γ δ : Type} {Q : α → β → σ → τ → Prop} {R : σ → τ → Prop} {s : σ} {t : τ}

@[simp] theorem both_pure (a : α) (b : β) :
    both (pure a : EStateM ε σ α) (pure b : EStateM ε τ β) Q R s t ↔ Q a b s t := Iff.rfl

@[simp] theorem both_throw (e e' : ε) :
    both (throw e : EStateM ε σ α) (throw e' : EStateM ε τ β) Q R s t ↔ e = e' ∧ R s t := Iff.rfl

@[simp] theorem both_modify {Q : PUnit → PUnit → σ → τ → Prop} (f : σ → σ) (g : τ → τ) :
    both (modify f : EStateM ε σ PUnit) (modify g : EStateM ε τ PUnit) Q R s t ↔ Q ⟨⟩ ⟨⟩ (f s) (g t) := Iff.rfl

@[simp] theorem both_set {Q : PUnit → PUnit → σ → τ → Prop} (s' : σ) (t' : τ) :
    both (set s' : EStateM ε σ PUnit) (set t' : EStateM ε τ PUnit) Q R s t ↔ Q ⟨⟩ ⟨⟩ s' t' := Iff.rfl

/-- What reads the state is run with it. -/
@[simp] theorem both_get_bind (f : σ → EStateM ε σ α) (g : τ → EStateM ε τ β) :
    both (get >>= f) (get >>= g) Q R s t ↔ both (f s) (g t) Q R s t := Iff.rfl

@[simp] theorem both_modify_bind (f : σ → σ) (g : τ → τ) (x : PUnit → EStateM ε σ α)
    (y : PUnit → EStateM ε τ β) :
    both (modify f >>= x) (modify g >>= y) Q R s t ↔ both (x ⟨⟩) (y ⟨⟩) Q R (f s) (g t) := Iff.rfl

/-- A step of both, and what follows from wherever they may be then. -/
theorem both_bind {x : EStateM ε σ α} {y : EStateM ε τ β} {f : α → EStateM ε σ γ}
    {g : β → EStateM ε τ δ} {Q' : γ → δ → σ → τ → Prop} (h : both x y Q R s t)
    (hf : ∀ a b s' t', Q a b s' t' → both (f a) (g b) Q' R s' t') :
    both (x >>= f) (y >>= g) Q' R s t := by
  unfold both at h ⊢
  rw [EStateM.run_bind, EStateM.run_bind]
  cases hx : x.run s with
  | ok a s' =>
      rw [hx] at h
      cases hy : y.run t with
      | ok b t' =>
          rw [hy] at h
          exact hf a b s' t' h
      | error e t' =>
          rw [hy] at h
          exact h.elim
  | error e s' =>
      rw [hx] at h
      cases hy : y.run t with
      | ok b t' =>
          rw [hy] at h
          exact h.elim
      | error e' t' =>
          rw [hy] at h
          exact h

theorem both_mono {x : EStateM ε σ α} {y : EStateM ε τ β} {Q' : α → β → σ → τ → Prop}
    {R' : σ → τ → Prop} (h : both x y Q R s t) (hQ : ∀ a b s' t', Q a b s' t' → Q' a b s' t')
    (hR : ∀ s' t', R s' t' → R' s' t') : both x y Q' R' s t := by
  unfold both at h ⊢
  split
  · next h₁ h₂ =>
      rw [h₁, h₂] at h
      exact hQ _ _ _ _ h
  · next h₁ h₂ =>
      rw [h₁, h₂] at h
      exact ⟨h.1, hR _ _ h.2⟩
  · next h₁ h₂ =>
      cases hx : x.run s with
      | ok a s' =>
          cases hy : y.run t with
          | ok b t' => exact absurd hy (h₁ _ _ _ _ hx)
          | error e t' => rwa [hx, hy] at h
      | error e s' =>
          cases hy : y.run t with
          | ok b t' => rwa [hx, hy] at h
          | error e' t' => exact absurd hy (h₂ _ _ _ _ hx)

/-- What the first run ensures by itself. -/
theorem both_and_left {x : EStateM ε σ α} {y : EStateM ε τ β} {Q' : α → σ → Prop}
    {R' : ε → σ → Prop} (h : both x y Q R s t) (h' : wp x Q' R' s) :
    both x y (fun a b s' t' => Q a b s' t' ∧ Q' a s') R s t := by
  unfold both at h ⊢
  unfold wp at h'
  cases hx : x.run s with
  | ok a s' =>
      cases hy : y.run t with
      | ok b t' =>
          rw [hx, hy] at h
          rw [hx] at h'
          exact ⟨h, h'⟩
      | error e t' =>
          rw [hx, hy] at h
          exact h
  | error e s' =>
      cases hy : y.run t with
      | ok b t' =>
          rw [hx, hy] at h
          exact h
      | error e' t' =>
          rw [hx, hy] at h
          exact h

/-- The same test on both sides. -/
theorem both_ite {p q : Prop} [Decidable p] [Decidable q] (hpq : p ↔ q)
    {x x' : EStateM ε σ α} {y y' : EStateM ε τ β} (h : p → both x y Q R s t)
    (h' : ¬ p → both x' y' Q R s t) :
    both (if p then x else x') (if q then y else y') Q R s t := by
  by_cases hp : p
  · rw [if_pos hp, if_pos (hpq.mp hp)]
    exact h hp
  · rw [if_neg hp, if_neg fun hq => hp (hpq.mpr hq)]
    exact h' hp

/-- A computation may be replaced by one that runs the same. -/
theorem both_congr_left {x x' : EStateM ε σ α} {y : EStateM ε τ β} (hx : x.run s = x'.run s) :
    both x y Q R s t ↔ both x' y Q R s t := by
  unfold both
  rw [hx]

end Rules

end StateWp

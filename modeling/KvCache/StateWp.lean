import Mathlib.Logic.Basic

/-!
# Weakest preconditions of stateful computations that may raise

`EStateM ε σ` is a computation on a state that may raise and then keeps the
state it had reached, as an object does whose method raises half-way.
`wp x Q R s` says how `x` ends from `s`: normally with a value and a state
in `Q`, or raising with a state in `R`. The rules follow the constructs of
`do` notation and are simp lemmas where they are equations, so that a proof
about a method reads the method from top to bottom.

`Keeps I x` is the special case of an invariant that neither outcome breaks.
-/

namespace StateWp

/-- From `s`, `x` ends in `Q`, or raises in `R`. -/
def wp {ε σ α : Type} (x : EStateM ε σ α) (Q : α → σ → Prop) (R : ε → σ → Prop) (s : σ) :
    Prop :=
  match x.run s with
  | .ok a s' => Q a s'
  | .error e s' => R e s'

/-- `x` keeps `I`, whether it returns or raises. -/
def Keeps {ε σ α : Type} (I : σ → Prop) (x : EStateM ε σ α) : Prop :=
  ∀ s, I s → wp x (fun _ => I) (fun _ => I) s

/-- The state in which `x` leaves `s`, raised or not. -/
def after {ε σ α : Type} (x : EStateM ε σ α) (s : σ) : σ :=
  match x.run s with
  | .ok _ s' => s'
  | .error _ s' => s'

/-- The value `x` returns from `s`, if it does not raise. -/
def value? {ε σ α : Type} (x : EStateM ε σ α) (s : σ) : Option α :=
  match x.run s with
  | .ok a _ => some a
  | .error _ _ => none

theorem run_eq_of_value? {ε σ α : Type} {x : EStateM ε σ α} {s : σ} {a : α}
    (h : value? x s = some a) : x.run s = .ok a (after x s) := by
  unfold value? at h
  unfold after
  split at h
  · next h' => rw [h', Option.some.inj h]
  · cases h

section Rules

variable {ε σ α β : Type} {Q : α → σ → Prop} {R : ε → σ → Prop} {s : σ}

@[simp] theorem wp_pure (a : α) : wp (pure a) Q R s ↔ Q a s := Iff.rfl

@[simp] theorem wp_get {Q : σ → σ → Prop} : wp get Q R s ↔ Q s s := Iff.rfl

@[simp] theorem wp_set {Q : PUnit → σ → Prop} (s' : σ) : wp (set s') Q R s ↔ Q ⟨⟩ s' := Iff.rfl

@[simp] theorem wp_modify {Q : PUnit → σ → Prop} (f : σ → σ) :
    wp (modify f) Q R s ↔ Q ⟨⟩ (f s) := Iff.rfl

@[simp] theorem wp_throw (e : ε) : wp (throw e) Q R s ↔ R e s := Iff.rfl

theorem run_tryCatch (x : EStateM ε σ α) (f : ε → EStateM ε σ α) (s : σ) :
    (tryCatch x f).run s = match x.run s with
      | .ok a s' => .ok a s'
      | .error e s' => (f e).run s' := by
  show EStateM.tryCatch x f s = _
  delta EStateM.tryCatch EStateM.run
  dsimp only
  cases x s <;> rfl

@[simp] theorem wp_tryCatch (x : EStateM ε σ α) (f : ε → EStateM ε σ α) :
    wp (tryCatch x f) Q R s ↔ wp x Q (fun e => wp (f e) Q R) s := by
  rw [wp, wp, run_tryCatch]
  cases x.run s <;> rfl

@[simp] theorem wp_bind (x : EStateM ε σ β) (f : β → EStateM ε σ α) :
    wp (x >>= f) Q R s ↔ wp x (fun b => wp (f b) Q R) R s := by
  simp only [wp, EStateM.run_bind]
  cases x.run s <;> rfl

@[simp] theorem wp_map (f : β → α) (x : EStateM ε σ β) :
    wp (f <$> x) Q R s ↔ wp x (fun b => Q (f b)) R s := by
  rw [map_eq_pure_bind, wp_bind]
  rfl

@[simp] theorem wp_ite (c : Prop) [Decidable c] (x y : EStateM ε σ α) :
    wp (if c then x else y) Q R s ↔ if c then wp x Q R s else wp y Q R s := by
  split <;> rfl

/-- Weakening what is ensured. -/
theorem wp_mono {x : EStateM ε σ α} {Q' : α → σ → Prop} {R' : ε → σ → Prop}
    (h : wp x Q R s) (hQ : ∀ a s', Q a s' → Q' a s') (hR : ∀ e s', R e s' → R' e s') :
    wp x Q' R' s := by
  unfold wp at h ⊢
  split <;> simp_all

theorem wp_congr {x : EStateM ε σ α} {Q' : α → σ → Prop} (h : ∀ a s', Q a s' ↔ Q' a s') :
    wp x Q R s ↔ wp x Q' R s :=
  ⟨fun hx => wp_mono hx (fun a s' => (h a s').mp) fun _ _ => id,
    fun hx => wp_mono hx (fun a s' => (h a s').mpr) fun _ _ => id⟩

theorem wp_and {x : EStateM ε σ α} {Q' : α → σ → Prop} {R' : ε → σ → Prop}
    (h : wp x Q R s) (h' : wp x Q' R' s) :
    wp x (fun a s => Q a s ∧ Q' a s) (fun e s => R e s ∧ R' e s) s := by
  unfold wp at h h' ⊢
  split <;> simp_all

/-- A computation that can only end in one way ends in that way. -/
theorem run_eq_ok {x : EStateM ε σ α} {a : α} {s' : σ}
    (h : wp x (fun b t => b = a ∧ t = s') (fun _ _ => False) s) : x.run s = .ok a s' := by
  unfold wp at h
  split at h
  · next h' => rw [h', h.1, h.2]
  · exact h.elim

theorem run_eq_error {x : EStateM ε σ α} {e : ε} {s' : σ}
    (h : wp x (fun _ _ => False) (fun b t => b = e ∧ t = s') s) : x.run s = .error e s' := by
  unfold wp at h
  split at h
  · exact h.elim
  · next h' => rw [h', h.1, h.2]

/-- How a known run meets its specification. -/
theorem wp_of_run_ok {x : EStateM ε σ α} {a : α} {s' : σ} (h : x.run s = .ok a s') :
    wp x Q R s ↔ Q a s' := by
  unfold wp
  rw [h]

theorem wp_of_run_error {x : EStateM ε σ α} {e : ε} {s' : σ} (h : x.run s = .error e s') :
    wp x Q R s ↔ R e s' := by
  unfold wp
  rw [h]

theorem wp_after {x : EStateM ε σ α} {P : σ → Prop} :
    wp x (fun _ => P) (fun _ => P) s ↔ P (after x s) := by
  unfold wp after
  split <;> rfl

/-! ## Invariants -/

variable {I : σ → Prop}

theorem keeps_pure (a : α) : Keeps I (pure a : EStateM ε σ α) := fun _ h => h

theorem keeps_throw (e : ε) : Keeps I (throw e : EStateM ε σ α) := fun _ h => h

theorem keeps_get : Keeps I (get : EStateM ε σ σ) := fun _ h => h

theorem keeps_modify {f : σ → σ} (h : ∀ s, I s → I (f s)) :
    Keeps I (modify f : EStateM ε σ PUnit) := h

theorem keeps_bind {x : EStateM ε σ β} {f : β → EStateM ε σ α} (hx : Keeps I x)
    (hf : ∀ b, Keeps I (f b)) : Keeps I (x >>= f) := by
  intro s hs
  rw [wp_bind]
  exact wp_mono (hx s hs) (fun b s' h => hf b s' h) (fun _ _ h => h)

theorem keeps_ite {c : Prop} [Decidable c] {x y : EStateM ε σ α} (hx : Keeps I x)
    (hy : Keeps I y) : Keeps I (if c then x else y) := by
  split
  · exact hx
  · exact hy

end Rules

end StateWp

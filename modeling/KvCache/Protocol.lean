import KvCache.Interaction

/-!
# Programs that follow a protocol

What a program may call next can depend on what it called before. A
`Protocol` keeps a state for that: `allows c s Q` says that the call `c` is
in turn in the state `s`, and that every answer to it leads to a state
that, with the answer, is in `Q`.

`Follows P Q R p s` says of the program `p`, begun in the state `s`, that it
makes no call out of turn and ends in `Q`, or raises in `R`.
-/

namespace Interaction

/-- What the calls `C` do to a state `σ`. -/
structure Protocol (C : Type → Type) (σ : Type) where
  allows : ∀ {β : Type}, C β → σ → (β → σ → Prop) → Prop
  mono : ∀ {β : Type} {c : C β} {s : σ} {Q Q' : β → σ → Prop},
    (∀ b t, Q b t → Q' b t) → allows c s Q → allows c s Q'

namespace Prog

variable {C : Type → Type} {ε α β σ : Type}

/-- From `s` on every call is in turn, and the end is in `Q` or `R`. -/
def Follows (P : Protocol C σ) (Q : α → σ → Prop) (R : ε → σ → Prop) : Prog C ε α → σ → Prop
  | done a, s => Q a s
  | raise e, s => R e s
  | call c next, s => P.allows c s fun r t => (next r).Follows P Q R t

section Rules

variable {P : Protocol C σ} {Q : α → σ → Prop} {R : ε → σ → Prop} {s : σ}

@[simp] theorem follows_pure (a : α) : (pure a : Prog C ε α).Follows P Q R s ↔ Q a s := Iff.rfl

@[simp] theorem follows_throw (e : ε) : (throw e : Prog C ε α).Follows P Q R s ↔ R e s := Iff.rfl

@[simp] theorem follows_ask {Q : β → σ → Prop} (c : C β) :
    (ask c : Prog C ε β).Follows P Q R s ↔ P.allows c s Q := Iff.rfl

theorem follows_askOrRaise {Q : β → σ → Prop} {c : C (Except ε β)}
    (h : P.allows c s fun r t => (∀ a, r = .ok a → Q a t) ∧ ∀ e, r = .error e → R e t) :
    (askOrRaise c).Follows P Q R s := by
  refine P.mono (fun r t ht => ?_) h
  cases r with
  | ok a => exact ht.1 a rfl
  | error e => exact ht.2 e rfl

/-- Weakening what is ensured at the end. -/
theorem follows_mono {p : Prog C ε α} {Q' : α → σ → Prop} {R' : ε → σ → Prop}
    (h : p.Follows P Q R s) (hQ : ∀ a t, Q a t → Q' a t) (hR : ∀ e t, R e t → R' e t) :
    p.Follows P Q' R' s := by
  induction p generalizing s with
  | done a => exact hQ a s h
  | raise e => exact hR e s h
  | call c next ih => exact P.mono (fun r t ht => ih r ht) h

theorem follows_bind {p : Prog C ε β} {f : β → Prog C ε α}
    (h : p.Follows P (fun b t => (f b).Follows P Q R t) R s) : (p >>= f).Follows P Q R s := by
  change (p.bind f).Follows P Q R s
  induction p generalizing s with
  | done a => exact h
  | raise e => exact h
  | call c next ih => exact P.mono (fun r t ht => ih r ht) h

theorem follows_tryCatch {p : Prog C ε α} {f : ε → Prog C ε α}
    (h : p.Follows P Q (fun e t => (f e).Follows P Q R t) s) :
    (tryCatch p f).Follows P Q R s := by
  change (p.handle f).Follows P Q R s
  induction p generalizing s with
  | done a => exact h
  | raise e => exact h
  | call c next ih => exact P.mono (fun r t ht => ih r ht) h

/-- A program that keeps to its part goes on with one that takes up there. -/
theorem follows_bind_of {p : Prog C ε β} {f : β → Prog C ε α} {Q' : β → σ → Prop}
    {R' : ε → σ → Prop} (h : p.Follows P Q' R' s)
    (hf : ∀ b t, Q' b t → (f b).Follows P Q R t) (hR : ∀ e t, R' e t → R e t) :
    (p >>= f).Follows P Q R s :=
  follows_bind (follows_mono h hf hR)

end Rules

end Prog

end Interaction

import Mathlib.Logic.Basic

/-!
# Programs that call their environment

A thread that does nothing but call other parts of a program is a tree:
each call has a continuation for every answer. `C β` are the calls that
are answered by a `β`; nothing is said about who answers, so one tree
stands for the thread among any others.

`Always ok P Q R` says of a program that, as long as the answers are `ok`,
every call it makes is in `P` and it ends in `Q`, or raises in `R`. The
rules follow the constructs of `do` notation.
-/

namespace Interaction

/-- A program over the calls `C` that may raise an `ε`. -/
inductive Prog (C : Type → Type) (ε α : Type) : Type 1 where
  | done (a : α)
  | raise (e : ε)
  | call {β : Type} (c : C β) (next : β → Prog C ε α)

namespace Prog

variable {C : Type → Type} {ε α β : Type}

def bind : Prog C ε α → (α → Prog C ε β) → Prog C ε β
  | done a, f => f a
  | raise e, _ => raise e
  | call c next, f => call c fun r => (next r).bind f

def handle : Prog C ε α → (ε → Prog C ε α) → Prog C ε α
  | done a, _ => done a
  | raise e, f => f e
  | call c next, f => call c fun r => (next r).handle f

instance : Monad (Prog C ε) where
  pure := done
  bind := bind

instance : MonadExcept ε (Prog C ε) where
  throw := raise
  tryCatch := handle

/-- Make a call. -/
def ask (c : C β) : Prog C ε β := call c done

/-- Make a call that may be answered by an exception. -/
def askOrRaise (c : C (Except ε β)) : Prog C ε β :=
  call c fun
    | .ok a => done a
    | .error e => raise e

/-- With answers in `ok`, the calls are in `P` and the end is in `Q` or `R`. -/
def Always (ok : ∀ {β : Type}, C β → β → Prop) (P : ∀ {β : Type}, C β → Prop) (Q : α → Prop)
    (R : ε → Prop) : Prog C ε α → Prop
  | done a => Q a
  | raise e => R e
  | call c next => P c ∧ ∀ r, ok c r → (next r).Always ok P Q R

/-- With answers in `ok`, the program can return `a`. -/
inductive Ends (ok : ∀ {β : Type}, C β → β → Prop) : Prog C ε α → α → Prop where
  | done (a : α) : Ends ok (done a) a
  | call {β : Type} {c : C β} {next : β → Prog C ε α} {r : β} {a : α} :
      ok c r → Ends ok (next r) a → Ends ok (call c next) a

/-- With answers in `ok`, the program can come to make the call `c`. -/
inductive Calls {γ : Type} (ok : ∀ {β : Type}, C β → β → Prop) (c : C γ) : Prog C ε α → Prop where
  | here {next : γ → Prog C ε α} : Calls ok c (call c next)
  | later {β : Type} {c' : C β} {next : β → Prog C ε α} {r : β} :
      ok c' r → Calls ok c (next r) → Calls ok c (call c' next)

section Rules

variable {ok : ∀ {β : Type}, C β → β → Prop} {P : ∀ {β : Type}, C β → Prop} {Q : α → Prop}
  {R : ε → Prop}

@[simp] theorem always_pure (a : α) : (pure a : Prog C ε α).Always ok P Q R ↔ Q a := Iff.rfl

@[simp] theorem always_throw (e : ε) : (throw e : Prog C ε α).Always ok P Q R ↔ R e := Iff.rfl

@[simp] theorem always_ask {Q : β → Prop} (c : C β) :
    (ask c : Prog C ε β).Always ok P Q R ↔ P c ∧ ∀ r, ok c r → Q r := Iff.rfl

@[simp] theorem always_askOrRaise {Q : β → Prop} (c : C (Except ε β)) :
    (askOrRaise c).Always ok P Q R ↔
      P c ∧ (∀ a, ok c (.ok a) → Q a) ∧ ∀ e, ok c (.error e) → R e := by
  refine and_congr_right fun _ => ⟨fun h => ⟨fun a => h (.ok a), fun e => h (.error e)⟩, ?_⟩
  rintro ⟨hQ, hR⟩ (e | a) hr
  · exact hR e hr
  · exact hQ a hr

@[simp] theorem always_bind (p : Prog C ε β) (f : β → Prog C ε α) :
    (p >>= f).Always ok P Q R ↔ p.Always ok P (fun b => (f b).Always ok P Q R) R := by
  change (p.bind f).Always ok P Q R ↔ _
  induction p with
  | done a => rfl
  | raise e => rfl
  | call c next ih => exact and_congr_right fun _ => forall_congr' fun r => imp_congr_right fun _ => ih r

@[simp] theorem always_tryCatch (p : Prog C ε α) (f : ε → Prog C ε α) :
    (tryCatch p f).Always ok P Q R ↔ p.Always ok P Q (fun e => (f e).Always ok P Q R) := by
  change (p.handle f).Always ok P Q R ↔ _
  induction p with
  | done a => rfl
  | raise e => rfl
  | call c next ih => exact and_congr_right fun _ => forall_congr' fun r => imp_congr_right fun _ => ih r

/-- Weakening what is ensured. -/
theorem always_mono {p : Prog C ε α} {P' : ∀ {β : Type}, C β → Prop} {Q' : α → Prop}
    {R' : ε → Prop} (h : p.Always ok P Q R) (hP : ∀ {β : Type} (c : C β), P c → P' c)
    (hQ : ∀ a, Q a → Q' a) (hR : ∀ e, R e → R' e) : p.Always ok P' Q' R' := by
  induction p with
  | done a => exact hQ a h
  | raise e => exact hR e h
  | call c next ih => exact ⟨hP c h.1, fun r hr => ih r (h.2 r hr)⟩

/-- What a program ends in is what it always ends in. -/
theorem always_ends {p : Prog C ε α} {a : α} (h : p.Always ok P Q R) (he : Ends ok p a) : Q a := by
  induction he with
  | done a => exact h
  | call hr _ ih => exact ih (h.2 _ hr)

/-- What a program can come to call is what it always calls. -/
theorem always_calls {γ : Type} {p : Prog C ε α} {c : C γ} (h : p.Always ok P Q R)
    (hc : Calls ok c p) : P c := by
  induction hc with
  | here => exact h.1
  | later hr _ ih => exact ih (h.2 _ hr)

end Rules

end Prog

end Interaction

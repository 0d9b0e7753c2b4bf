import Mathlib.Data.List.DropRight
import Mathlib.Tactic.IntervalCases
import Mathlib.Tactic.Ring

/-!
# Text as Python programs cut it up

The string methods that command texts go through: `partition`,
`rpartition`, `split` at a separator or at white space, `strip`, and the
integers that `int()` reads. A text is the list of its characters here;
the wrappers at the end work on strings.

`int()` takes every Unicode decimal digit, single underscores between
digits and white space around the number. It refuses a number of more than
4300 digits, and `str()` refuses to write one: what one of them lets pass
the other one does as well (`toInt_repr`, `isPrintable_of_toInt`).
-/

namespace PyText

/-- `str.isspace` of one character. -/
def isSpace (c : Char) : Bool :=
  let n := c.toNat
  (9 ≤ n ∧ n ≤ 13) ∨ (28 ≤ n ∧ n ≤ 32) ∨ n = 0x85 ∨ n = 0xa0 ∨ n = 0x1680 ∨
    (0x2000 ≤ n ∧ n ≤ 0x200a) ∨ n = 0x2028 ∨ n = 0x2029 ∨ n = 0x202f ∨ n = 0x205f ∨ n = 0x3000

/-! ## Cutting -/

def lstrip (l : List Char) : List Char := l.dropWhile isSpace

def rstrip (l : List Char) : List Char := l.rdropWhile isSpace

def strip (l : List Char) : List Char := rstrip (lstrip l)

/-- `head, _, tail = l.partition(sep)`; no separator leaves the tail empty. -/
def partition (sep : Char) (l : List Char) : List Char × List Char :=
  (l.takeWhile (· != sep), (l.dropWhile (· != sep)).tail)

/-- `head, _, tail = l.rpartition(sep)`; no separator leaves the head empty. -/
def rpartition (sep : Char) (l : List Char) : List Char × List Char :=
  ((l.rdropWhile (· != sep)).dropLast, l.rtakeWhile (· != sep))

/-- `l.split(sep, n)`: the pieces between separators, at most `n` cuts. -/
def splitAt (sep : Char) : Nat → List Char → List (List Char)
  | 0, l => [l]
  | n + 1, l =>
    match l.dropWhile (· != sep) with
    | [] => [l]
    | _ :: rest => l.takeWhile (· != sep) :: splitAt sep n rest

/-- `l.split(sep)` -/
def split (sep : Char) (l : List Char) : List (List Char) := splitAt sep l.length l

/-- `l.split(None, n)`: the words, at most `n` cuts; what follows the last
cut keeps its own white space, but for that in front. -/
def wordsUpTo : Nat → List Char → List (List Char)
  | 0, l =>
    match lstrip l with
    | [] => []
    | rest => [rest]
  | n + 1, l =>
    match lstrip l with
    | [] => []
    | rest => rest.takeWhile (fun c => ¬isSpace c) ::
        wordsUpTo n (rest.dropWhile (fun c => ¬isSpace c))

/-- `l.split()` -/
def words (l : List Char) : List (List Char) := wordsUpTo l.length l

/-! ## Numbers -/

/-- The zeros of the decimal digit systems; the other nine digits follow each. -/
def digitZeros : List Nat :=
  [0x30, 0x660, 0x6f0, 0x7c0, 0x966, 0x9e6, 0xa66, 0xae6, 0xb66, 0xbe6, 0xc66, 0xce6, 0xd66,
   0xde6, 0xe50, 0xed0, 0xf20, 0x1040, 0x1090, 0x17e0, 0x1810, 0x1946, 0x19d0, 0x1a80, 0x1a90,
   0x1b50, 0x1bb0, 0x1c40, 0x1c50, 0xa620, 0xa8d0, 0xa900, 0xa9d0, 0xa9f0, 0xaa50, 0xabf0,
   0xff10, 0x104a0, 0x10d30, 0x11066, 0x110f0, 0x11136, 0x111d0, 0x112f0, 0x11450, 0x114d0,
   0x11650, 0x116c0, 0x11730, 0x118e0, 0x11950, 0x11c50, 0x11d50, 0x11da0, 0x16a60, 0x16ac0,
   0x16b50, 0x1d7ce, 0x1d7d8, 0x1d7e2, 0x1d7ec, 0x1d7f6, 0x1e140, 0x1e2f0, 0x1e950, 0x1fbf0]

def digit? (c : Char) : Option Nat :=
  (digitZeros.find? fun z => z ≤ c.toNat ∧ c.toNat < z + 10).map (c.toNat - ·)

/-- The rest of a number of which `acc` has been read. -/
def moreDigits (acc : Nat) : List Char → Option Nat
  | [] => some acc
  | '_' :: c :: rest => (digit? c).bind fun d => moreDigits (10 * acc + d) rest
  | c :: rest => (digit? c).bind fun d => moreDigits (10 * acc + d) rest

def digits : List Char → Option Nat
  | [] => none
  | c :: rest => (digit? c).bind fun d => moreDigits d rest

/-- White space to `int()`, to which the separators of ASCII are none in a text
of nothing but ASCII. -/
def isIntSpace (ascii : Bool) (c : Char) : Bool :=
  isSpace c && !(ascii && 28 ≤ c.toNat && c.toNat ≤ 31)

def isAscii (l : List Char) : Bool := l.all fun c => c.toNat < 128

/-- Digits after a sign, if there is one. -/
def signed : List Char → Option Int
  | '-' :: rest => (digits rest).map fun n : Nat => -(n : Int)
  | '+' :: rest => (digits rest).map Int.ofNat
  | rest => (digits rest).map Int.ofNat

/-- The number that a text is, however long. -/
def number (l : List Char) : Option Int :=
  signed ((l.dropWhile (isIntSpace (isAscii l))).rdropWhile (isIntSpace (isAscii l)))

/-- `sys.get_int_max_str_digits()` -/
def maxStrDigits : Nat := 4300

/-- The digits of a text; signs and underscores do not count. -/
def digitCount (l : List Char) : Nat := l.countP fun c => (digit? c).isSome

/-- `int(l)`; none where it raises. -/
def toInt (l : List Char) : Option Int := if digitCount l ≤ maxStrDigits then number l else none

/-- `str(n)` does not raise. -/
def isPrintable (n : Int) : Bool := decide (n.natAbs.repr.length ≤ maxStrDigits)

/-! ## Digits and upper case -/

/-- Blocks of characters that `str.isdigit` takes and `int()` does not. -/
def otherDigits : List (Nat × Nat) :=
  [(0xb2, 0xb3), (0xb9, 0xb9), (0x1369, 0x1371), (0x19da, 0x19da), (0x2070, 0x2070),
   (0x2074, 0x2079), (0x2080, 0x2089), (0x2460, 0x2468), (0x2474, 0x247c), (0x2488, 0x2490),
   (0x24ea, 0x24ea), (0x24f5, 0x24fd), (0x24ff, 0x24ff), (0x2776, 0x277e), (0x2780, 0x2788),
   (0x278a, 0x2792), (0x10a40, 0x10a43), (0x10e60, 0x10e68), (0x11052, 0x1105a),
   (0x1f100, 0x1f10a)]

/-- `l.isdigit()` -/
def isdigit (l : List Char) : Bool :=
  !l.isEmpty && l.all fun c =>
    (digit? c).isSome || otherDigits.any fun block => block.1 ≤ c.toNat && c.toNat ≤ block.2

/-- Characters beyond ASCII whose upper case is ASCII. -/
def asciiUppers : List (Nat × String) :=
  [(0xdf, "SS"), (0x131, "I"), (0x17f, "S"), (0xfb00, "FF"), (0xfb01, "FI"), (0xfb02, "FL"),
   (0xfb03, "FFI"), (0xfb04, "FFL"), (0xfb05, "ST"), (0xfb06, "ST")]

/-- `l.upper()`, but that a character whose upper case is not ASCII stays
as it is. -/
def upper (l : List Char) : List Char :=
  l.flatMap fun c => ((asciiUppers.lookup c.toNat).map String.toList).getD [c.toUpper]

/-! ## What the cuts leave -/

theorem ne_of_notMem {sep : Char} {l : List Char} (hl : sep ∉ l) : ∀ c ∈ l, (c != sep) = true := by
  intro c hc
  rw [bne_iff_ne]
  rintro rfl
  exact hl hc

/-- Cutting a text at the separator that was put between its parts. -/
theorem partition_append {sep : Char} {l r : List Char} (hl : sep ∉ l) :
    partition sep (l ++ sep :: r) = (l, r) := by
  have hp := ne_of_notMem hl
  rw [partition, List.takeWhile_append_of_pos hp, List.dropWhile_append_of_pos hp]
  simp

theorem rpartition_append {sep : Char} {l r : List Char} (hr : sep ∉ r) :
    rpartition sep (l ++ sep :: r) = (l, r) := by
  have hp := ne_of_notMem fun h => hr (List.mem_reverse.mp h)
  have hrev : (l ++ sep :: r).reverse = r.reverse ++ (sep :: l.reverse) := by simp
  rw [rpartition, List.rdropWhile, List.rtakeWhile, hrev, List.takeWhile_append_of_pos hp,
    List.dropWhile_append_of_pos hp]
  simp

/-! ## Decimal texts -/

theorem toNat_of_isDigit {c : Char} (h : c.isDigit = true) : 48 ≤ c.toNat ∧ c.toNat ≤ 57 := by
  simp only [Char.isDigit, Bool.and_eq_true, decide_eq_true_eq, ge_iff_le, UInt32.le_iff_toNat_le] at h
  exact h

theorem digit?_of_isDigit {c : Char} (h : c.isDigit = true) : digit? c = some (c.toNat - 48) := by
  obtain ⟨h₁, h₂⟩ := toNat_of_isDigit h
  have h₃ : c.toNat < 48 + 10 := by omega
  simp [digit?, digitZeros, h₁, h₃]

theorem isSpace_of_isDigit {c : Char} (h : c.isDigit = true) : isSpace c = false := by
  obtain ⟨h₁, h₂⟩ := toNat_of_isDigit h
  simp only [isSpace, decide_eq_false_iff_not]
  omega

theorem moreDigits_of_isDigit {l : List Char} (hl : ∀ c ∈ l, c.isDigit = true) (acc : Nat) :
    moreDigits acc l = some (Nat.ofDigitChars 10 l acc) := by
  induction l generalizing acc with
  | nil => simp [moreDigits]
  | cons c l ih =>
      have hc := hl c (by simp)
      have hu : c ≠ '_' := by
        rintro rfl
        exact absurd hc (by decide)
      have h : moreDigits acc (c :: l) = (digit? c).bind fun d => moreDigits (10 * acc + d) l := by
        rw [moreDigits.eq_def]
        split
        · contradiction
        · next h => exact absurd (List.cons.inj h).1 hu
        · next h =>
            obtain ⟨rfl, rfl⟩ := List.cons.inj h
            rfl
      rw [h, digit?_of_isDigit hc, Option.bind_some, ih fun d hd => hl d (by simp [hd]),
        Nat.ofDigitChars_cons]
      rfl

theorem digits_repr (n : Nat) : digits n.repr.toList = some n := by
  have hd : ∀ c ∈ Nat.toDigits 10 n, c.isDigit = true := fun c hc =>
    Nat.isDigit_of_mem_toDigits (by decide) (by decide) hc
  rw [Nat.toList_repr]
  cases h : Nat.toDigits 10 n with
  | nil => exact absurd h Nat.toDigits_ne_nil
  | cons c l =>
      rw [h] at hd
      have hv : Nat.ofDigitChars 10 (c :: l) 0 = n := h ▸ Nat.ofDigitChars_ten_toDigits
      rw [digits, digit?_of_isDigit (hd c (by simp)), Option.bind_some,
        moreDigits_of_isDigit fun d hd' => hd d (by simp [hd'])]
      rw [Nat.ofDigitChars_cons] at hv
      simpa using hv

theorem isDigit_of_mem_repr (n : Nat) : ∀ c ∈ n.repr.toList, c.isDigit = true := by
  intro c hc
  rw [Nat.toList_repr] at hc
  exact Nat.isDigit_of_mem_toDigits (by decide) (by decide) hc

theorem toList_repr_negSucc (m : Nat) : (Int.negSucc m).repr.toList = '-' :: (m + 1).repr.toList := by
  simp [Int.repr]

theorem isIntSpace_of_isSpace {ascii : Bool} {c : Char} (h : isSpace c = false) :
    isIntSpace ascii c = false := by
  simp [isIntSpace, h]

/-- A number without white space around it. -/
theorem number_of_noSpace {l : List Char} (hl : ∀ c ∈ l, isSpace c = false) :
    number l = signed l := by
  have hd : ∀ l' : List Char, (∀ c ∈ l', isSpace c = false) →
      l'.dropWhile (isIntSpace (isAscii l)) = l' := by
    intro l' h
    cases l' with
    | nil => rfl
    | cons c l' =>
        rw [List.dropWhile_cons_of_neg (by simp [isIntSpace_of_isSpace (h c List.mem_cons_self)])]
  unfold number
  rw [hd l hl, List.rdropWhile, hd l.reverse fun c hc => hl c (List.mem_reverse.mp hc),
    List.reverse_reverse]

/-- Digits without a sign. -/
theorem number_of_isDigit {l : List Char} (hl : ∀ c ∈ l, c.isDigit = true) :
    number l = (digits l).map Int.ofNat := by
  rw [number_of_noSpace fun c hc => isSpace_of_isDigit (hl c hc)]
  unfold signed
  split
  · exact absurd (hl '-' List.mem_cons_self) (by decide)
  · exact absurd (hl '+' List.mem_cons_self) (by decide)
  · rfl

theorem isSpace_of_mem_repr (n : Int) : ∀ c ∈ n.repr.toList, isSpace c = false := by
  cases n with
  | ofNat m => exact fun c hc => isSpace_of_isDigit (isDigit_of_mem_repr m c hc)
  | negSucc m =>
      rw [toList_repr_negSucc]
      rintro c (_ | ⟨_, hc⟩)
      · decide
      · exact isSpace_of_isDigit (isDigit_of_mem_repr _ c hc)

theorem number_repr (n : Int) : number n.repr.toList = some n := by
  cases n with
  | ofNat m =>
      show number m.repr.toList = _
      rw [number_of_isDigit (isDigit_of_mem_repr m), digits_repr]
      rfl
  | negSucc m =>
      rw [number_of_noSpace (isSpace_of_mem_repr _), toList_repr_negSucc, signed, digits_repr]
      rfl

/-! ### The limit on digits -/

theorem digitCount_of_isDigit {l : List Char} (hl : ∀ c ∈ l, c.isDigit = true) :
    digitCount l = l.length := by
  rw [digitCount, List.countP_eq_length]
  intro c hc
  rw [digit?_of_isDigit (hl c hc)]
  rfl

theorem digitCount_repr (n : Int) : digitCount n.repr.toList = n.natAbs.repr.length := by
  cases n with
  | ofNat m => exact digitCount_of_isDigit (isDigit_of_mem_repr m)
  | negSucc m =>
      have hminus : (digit? '-').isSome = false := by decide
      rw [toList_repr_negSucc, digitCount, List.countP_cons_of_neg (by simp [hminus])]
      exact digitCount_of_isDigit (isDigit_of_mem_repr (m + 1))

/-- `int(str(n))` is `n`. -/
theorem toInt_repr {n : Int} (h : isPrintable n = true) : toInt n.repr.toList = some n := by
  rw [toInt, digitCount_repr, if_pos (of_decide_eq_true h), number_repr]

theorem digit?_lt {c : Char} {d : Nat} (h : digit? c = some d) : d < 10 := by
  obtain ⟨z, hz, rfl⟩ := Option.map_eq_some_iff.mp h
  have := List.find?_some hz
  simp only [decide_eq_true_eq] at this
  omega

/-- A number is below the power of ten of its digits. -/
theorem moreDigits_lt {acc : Nat} {l : List Char} {n : Nat} (h : moreDigits acc l = some n) :
    n < (acc + 1) * 10 ^ digitCount l := by
  have hstep : ∀ {c : Char} {d acc : Nat} {rest : List Char}, digit? c = some d →
      n < (10 * acc + d + 1) * 10 ^ digitCount rest →
      n < (acc + 1) * 10 ^ digitCount (c :: rest) := by
    intro c d acc rest hd hn
    have hc : digitCount (c :: rest) = digitCount rest + 1 := by
      rw [digitCount, List.countP_cons_of_pos (by rw [hd]; rfl)]
      rfl
    have hlt := digit?_lt hd
    calc n < (10 * acc + d + 1) * 10 ^ digitCount rest := hn
      _ ≤ ((acc + 1) * 10) * 10 ^ digitCount rest := Nat.mul_le_mul_right _ (by omega)
      _ = (acc + 1) * 10 ^ digitCount (c :: rest) := by rw [hc, pow_succ]; ring
  induction acc, l using moreDigits.induct with
  | case1 acc =>
      cases h
      simp [digitCount]
  | case2 acc c rest ih =>
      rw [moreDigits] at h
      obtain ⟨d, hd, h⟩ := Option.bind_eq_some_iff.mp h
      have hunder : (digit? '_').isSome = false := by decide
      rw [digitCount, List.countP_cons_of_neg (by simp [hunder])]
      exact hstep hd (ih d h)
  | case3 acc c rest hno ih =>
      rw [moreDigits.eq_3 _ _ _ hno] at h
      obtain ⟨d, hd, h⟩ := Option.bind_eq_some_iff.mp h
      exact hstep hd (ih d h)

theorem digits_lt {l : List Char} {n : Nat} (h : digits l = some n) : n < 10 ^ digitCount l := by
  cases l with
  | nil => cases h
  | cons c rest =>
      obtain ⟨d, hd, h⟩ := Option.bind_eq_some_iff.mp h
      have hc : digitCount (c :: rest) = digitCount rest + 1 := by
        rw [digitCount, List.countP_cons_of_pos (by rw [hd]; rfl)]
        rfl
      have hlt := digit?_lt hd
      calc n < (d + 1) * 10 ^ digitCount rest := moreDigits_lt h
        _ ≤ 10 * 10 ^ digitCount rest := Nat.mul_le_mul_right _ (by omega)
        _ = 10 ^ digitCount (c :: rest) := by rw [hc, pow_succ]; ring

/-- What `int()` has read `str()` can write. -/
theorem isPrintable_of_toInt {l : List Char} {n : Int} (h : toInt l = some n) :
    isPrintable n = true := by
  unfold toInt at h
  split at h
  · next hle =>
      have hsub : ((l.dropWhile (isIntSpace (isAscii l))).rdropWhile
          (isIntSpace (isAscii l))).Sublist l :=
        (List.rdropWhile_prefix _ _).sublist.trans (List.dropWhile_sublist _)
      have hcount := hsub.countP_le (p := fun c => (digit? c).isSome)
      have hlt : n.natAbs < 10 ^ digitCount l := by
        unfold number at h
        generalize (l.dropWhile (isIntSpace (isAscii l))).rdropWhile (isIntSpace (isAscii l)) = l'
          at h hcount
        unfold signed at h
        have hof : ∀ {rest : List Char} {k : Nat}, rest.Sublist l' → digits rest = some k →
            k < 10 ^ digitCount l := fun hr hk =>
          (digits_lt hk).trans_le (Nat.pow_le_pow_right (by decide) ((hr.countP_le).trans hcount))
        split at h
        · obtain ⟨k, hk, rfl⟩ := Option.map_eq_some_iff.mp h
          rw [Int.natAbs_neg, Int.natAbs_natCast]
          exact hof (List.sublist_cons_self _ _) hk
        · obtain ⟨k, hk, rfl⟩ := Option.map_eq_some_iff.mp h
          exact hof (List.sublist_cons_self _ _) hk
        · obtain ⟨k, hk, rfl⟩ := Option.map_eq_some_iff.mp h
          exact hof (List.Sublist.refl _) hk
      refine decide_eq_true ((Nat.length_repr_le_iff (by decide)).mpr ?_)
      exact hlt.trans_le (Nat.pow_le_pow_right (by decide) hle)
  · cases h

/-! ## Pieces and words -/

theorem splitAt_append {sep : Char} {l r : List Char} (hl : sep ∉ l) (n : Nat) :
    splitAt sep (n + 1) (l ++ sep :: r) = l :: splitAt sep n r := by
  have hp := ne_of_notMem hl
  rw [splitAt, List.dropWhile_append_of_pos hp, List.takeWhile_append_of_pos hp]
  simp

theorem splitAt_of_notMem {sep : Char} {l : List Char} (hl : sep ∉ l) (n : Nat) :
    splitAt sep n l = [l] := by
  cases n with
  | zero => rfl
  | succ n => rw [splitAt, List.dropWhile_eq_nil_iff.mpr (ne_of_notMem hl)]

/-- A word that has been cut off is not empty and has no white space. -/
theorem wordsUpTo_cons {n : Nat} {l w : List Char} {ws : List (List Char)}
    (h : wordsUpTo (n + 1) l = w :: ws) :
    w ≠ [] ∧ (∀ c ∈ w, isSpace c = false) ∧ ∃ l', ws = wordsUpTo n l' := by
  rw [wordsUpTo] at h
  cases hs : lstrip l with
  | nil =>
      rw [hs] at h
      cases h
  | cons c rest =>
      rw [hs] at h
      obtain ⟨rfl, rfl⟩ := List.cons.inj h
      have hc : isSpace c = false := by
        have := List.head_dropWhile_not isSpace (l := l)
        rw [show l.dropWhile isSpace = c :: rest from hs] at this
        simpa using this (by simp)
      refine ⟨?_, fun d hd => ?_, _, rfl⟩
      · rw [List.takeWhile_cons_of_pos (by simp [hc])]
        simp
      · simpa using List.mem_takeWhile_imp hd

theorem words_cons {l w : List Char} {ws : List (List Char)} (h : words l = w :: ws) :
    w ≠ [] ∧ ∀ c ∈ w, isSpace c = false := by
  unfold words at h
  cases hl : l.length with
  | zero =>
      rw [hl, List.length_eq_zero_iff.mp hl] at h
      cases h
  | succ n =>
      rw [hl] at h
      obtain ⟨hne, hw, -⟩ := wordsUpTo_cons h
      exact ⟨hne, hw⟩

/-- `int` of ASCII digits. -/
theorem toInt_of_isDigit {l : List Char} (hl : ∀ c ∈ l, c.isDigit = true) (hne : l ≠ [])
    (hlen : l.length ≤ maxStrDigits) : toInt l = some (Nat.ofDigitChars 10 l 0 : Nat) := by
  have hn : digits l = some (Nat.ofDigitChars 10 l 0) := by
    cases l with
    | nil => exact absurd rfl hne
    | cons c l =>
        rw [digits, digit?_of_isDigit (hl c (by simp)), Option.bind_some,
          moreDigits_of_isDigit fun d hd => hl d (by simp [hd]), Nat.ofDigitChars_cons]
        simp
  rw [toInt, digitCount_of_isDigit hl, if_pos hlen, number_of_isDigit hl, hn]
  rfl

theorem ofDigitChars_lt {l : List Char} (hl : ∀ c ∈ l, c.isDigit = true) (acc : Nat) :
    Nat.ofDigitChars 10 l acc < (acc + 1) * 10 ^ l.length := by
  induction l generalizing acc with
  | nil => simp
  | cons c l ih =>
      obtain ⟨h₁, h₂⟩ := toNat_of_isDigit (hl c (by simp))
      rw [Nat.ofDigitChars_cons, List.length_cons, pow_succ]
      calc Nat.ofDigitChars 10 l _ < (10 * acc + (c.toNat - 48) + 1) * 10 ^ l.length :=
            ih (fun d hd => hl d (by simp [hd])) _
        _ ≤ ((acc + 1) * 10) * 10 ^ l.length := Nat.mul_le_mul_right _ (by omega)
        _ = (acc + 1) * (10 ^ l.length * 10) := by ring

/-! ## White space at the ends -/

theorem lstrip_cons {c : Char} {l : List Char} (h : isSpace c = false) : lstrip (c :: l) = c :: l :=
  List.dropWhile_cons_of_neg (by simp [h])

theorem rstrip_append {l r : List Char} (h : rstrip r ≠ []) : rstrip (l ++ r) = l ++ rstrip r := by
  unfold rstrip List.rdropWhile at *
  rw [List.reverse_append, List.dropWhile_append]
  have hne : (List.dropWhile isSpace r.reverse).isEmpty = false := by
    rw [List.isEmpty_eq_false_iff]
    exact fun hnil => h (by rw [hnil]; rfl)
  rw [hne]
  simp

theorem rstrip_append_of_space {l r : List Char} (h : rstrip r = []) :
    rstrip (l ++ r) = rstrip l := by
  unfold rstrip List.rdropWhile at *
  rw [List.reverse_append, List.dropWhile_append]
  have hnil : List.dropWhile isSpace r.reverse = [] := List.reverse_eq_nil_iff.mp h
  rw [hnil]
  rfl

theorem rstrip_word {l : List Char} (h : ∀ c ∈ l, isSpace c = false) : rstrip l = l := by
  unfold rstrip List.rdropWhile
  have hno : l.reverse.dropWhile isSpace = l.reverse := by
    cases hl : l.reverse with
    | nil => rfl
    | cons c r =>
        refine List.dropWhile_cons_of_neg ?_
        rw [h c (List.mem_reverse.mp (hl ▸ List.mem_cons_self))]
        exact Bool.false_ne_true
  rw [hno, List.reverse_reverse]

theorem rstrip_rstrip (l : List Char) : rstrip (rstrip l) = rstrip l := by
  unfold rstrip
  exact List.rdropWhile_idempotent _ _

/-- No white space at either end. -/
def Bare (l : List Char) : Prop := lstrip l = l ∧ rstrip l = l

/-- Only a bare text survives the loss of the white space at both ends. -/
theorem bare_iff {l : List Char} : lstrip (rstrip l) = l ↔ Bare l := by
  constructor
  · intro h
    have hr : (rstrip l).length ≤ l.length := (List.rdropWhile_prefix _ _).length_le
    have hl : (lstrip (rstrip l)).length ≤ (rstrip l).length := (List.dropWhile_suffix _).length_le
    have hlen := congrArg List.length h
    have hrstrip : rstrip l = l := (List.rdropWhile_prefix _ _).eq_of_length (by
      unfold rstrip at *
      omega)
    rw [hrstrip] at h
    exact ⟨h, hrstrip⟩
  · rintro ⟨hl, hr⟩
    rw [hr, hl]

/-- A word is cut off at the white space after it. -/
theorem wordsUpTo_word {n : Nat} {w r : List Char} {c : Char} (hw : w ≠ [])
    (h : ∀ c ∈ w, isSpace c = false) (hc : isSpace c = true) :
    wordsUpTo (n + 1) (w ++ c :: r) = w :: wordsUpTo n (c :: r) := by
  have hl : lstrip (w ++ c :: r) = w ++ c :: r := by
    cases w with
    | nil => exact absurd rfl hw
    | cons d w => exact lstrip_cons (h d List.mem_cons_self)
  have hp : ∀ d ∈ w, (decide ¬ isSpace d = true) = true := fun d hd => by
    rw [h d hd]
    rfl
  have hword : (w ++ c :: r).takeWhile (fun c => ¬ isSpace c) = w ∧
      (w ++ c :: r).dropWhile (fun c => ¬ isSpace c) = c :: r := by
    rw [List.takeWhile_append_of_pos hp, List.dropWhile_append_of_pos hp, List.takeWhile_cons_of_neg,
      List.dropWhile_cons_of_neg, List.append_nil]
    · exact ⟨rfl, rfl⟩
    · simp [hc]
    · simp [hc]
  obtain ⟨d, l, hd⟩ : ∃ d l, w ++ c :: r = d :: l := by
    cases w with
    | nil => exact ⟨_, _, rfl⟩
    | cons d w => exact ⟨_, _, rfl⟩
  rw [wordsUpTo, hl, hd]
  dsimp only
  rw [← hd, hword.1, hword.2]

theorem wordsUpTo_zero_cons {c : Char} {r : List Char} (hc : isSpace c = true) (h : lstrip r ≠ []) :
    wordsUpTo 0 (c :: r) = [lstrip r] := by
  have hl : lstrip (c :: r) = lstrip r := List.dropWhile_cons_of_pos hc
  unfold wordsUpTo
  rw [hl]
  split
  · rename_i hnil
    exact absurd hnil h
  · rfl

end PyText

import Mathlib.Data.List.Sort
import Mathlib.Data.List.Forall2

/-!
# Sorting by a key

A list sorted by a key that tells its elements apart: two sorted
rearrangements are equal, a filter may be taken before or after, and the other
direction is the reverse.
-/

variable {α β : Type} [LinearOrder β]

/-- The list in ascending order of the key. -/
def sortOn (key : α → β) (l : List α) : List α := l.insertionSort fun a b => key a ≤ key b

/-- The list in descending order of the key. -/
def sortOnDesc (key : α → β) (l : List α) : List α := l.insertionSort fun a b => key b ≤ key a

section

variable {key : α → β} {l l' : List α}

theorem sortOn_perm (key : α → β) (l : List α) : (sortOn key l).Perm l :=
  List.perm_insertionSort _ _

theorem sortOn_sorted (key : α → β) (l : List α) :
    (sortOn key l).Pairwise fun a b => key a ≤ key b := by
  have : IsTrans α fun a b => key a ≤ key b := ⟨fun _ _ _ => le_trans⟩
  have : Std.Total (α := α) fun a b => key a ≤ key b := ⟨fun a b => le_total (key a) (key b)⟩
  exact List.pairwise_insertionSort _ _

theorem sortOnDesc_sorted (key : α → β) (l : List α) :
    (sortOnDesc key l).Pairwise fun a b => key b ≤ key a := by
  have : IsTrans α fun a b => key b ≤ key a := ⟨fun _ _ _ h h' => le_trans h' h⟩
  have : Std.Total (α := α) fun a b => key b ≤ key a := ⟨fun a b => le_total (key b) (key a)⟩
  exact List.pairwise_insertionSort _ _

/-- In a sorted list without two equal keys the keys ascend strictly. -/
theorem pairwise_lt_of_sorted (h : l.Pairwise fun a b => key a ≤ key b)
    (hn : (l.map key).Nodup) : l.Pairwise fun a b => key a < key b :=
  (h.and (List.pairwise_map.mp hn)).imp fun h => lt_of_le_of_ne h.1 h.2

/-- Two sorted rearrangements of one another are equal. -/
theorem eq_of_perm_of_sorted (hp : l.Perm l') (hn : (l.map key).Nodup)
    (h : l.Pairwise fun a b => key a ≤ key b) (h' : l'.Pairwise fun a b => key a ≤ key b) :
    l = l' := by
  have hn' : (l'.map key).Nodup := (hp.map key).nodup_iff.mp hn
  exact hp.eq_of_pairwise (fun a b _ _ h1 h2 => absurd h1 (lt_asymm h2))
    (pairwise_lt_of_sorted h hn) (pairwise_lt_of_sorted h' hn')

/-- A sorted list stays as it is. -/
theorem sortOn_of_sorted (h : l.Pairwise fun a b => key a ≤ key b) : sortOn key l = l :=
  h.insertionSort_eq

theorem filter_sortOn (p : α → Bool) (hn : (l.map key).Nodup) :
    (sortOn key l).filter p = sortOn key (l.filter p) := by
  have hperm : ((sortOn key l).filter p).Perm (sortOn key (l.filter p)) :=
    ((sortOn_perm key l).filter p).trans (sortOn_perm key (l.filter p)).symm
  refine eq_of_perm_of_sorted hperm ?_ ((sortOn_sorted key l).filter p) (sortOn_sorted key _)
  exact (((sortOn_perm key l).map key).nodup_iff.mpr hn).sublist (List.filter_sublist.map key)

theorem sortOnDesc_eq_reverse (hn : (l.map key).Nodup) :
    sortOnDesc key l = (sortOn key l).reverse := by
  have hperm : (sortOnDesc key l).reverse.Perm (sortOn key l) :=
    (List.reverse_perm _).trans
      ((List.perm_insertionSort _ _).trans (sortOn_perm key l).symm)
  have hnodup : ((sortOnDesc key l).reverse.map key).Nodup :=
    ((hperm.trans (sortOn_perm key l)).map key).nodup_iff.mpr hn
  rw [← eq_of_perm_of_sorted hperm hnodup (List.pairwise_reverse.mpr (sortOnDesc_sorted key l))
    (sortOn_sorted key l), List.reverse_reverse]

end

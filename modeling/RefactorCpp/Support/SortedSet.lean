import Mathlib.Data.List.Destutter
import Mathlib.Data.List.Sort
import Mathlib.Data.Set.Basic

/-!
# Sorted lists as sets

Over an arbitrary type with a strict total order:

* `Enumerates` — a list goes through a set in strictly increasing order; such a list is unique
  (`Enumerates.unique`).
* `sorted`, `unique` — sorting, and dropping an element equal to the one before it.
* `unique_sorted_enumerates` — **sorting and dropping adjacent duplicates enumerates the set of
  elements**, although only adjacent elements are compared.
* `unique_of_sorted_perm` — any other sorting algorithm leads to the same list.
-/

set_option autoImplicit false

namespace SortedSet

variable {α : Type} {lt : α → α → Prop}

/-- The list goes through the elements of `S` in strictly increasing order. -/
structure Enumerates (lt : α → α → Prop) (S : Set α) (l : List α) : Prop where
  increasing : l.Pairwise lt
  mem_iff : ∀ x, x ∈ l ↔ x ∈ S

/-- Stable sorting by a strict order. -/
def sorted (lt : α → α → Prop) [DecidableRel lt] (l : List α) : List α :=
  l.mergeSort fun a b => !decide (lt b a)

/-- Keep the first of adjacent equal elements. -/
def unique [DecidableEq α] (l : List α) : List α := l.destutter (· ≠ ·)

theorem sorted_perm [DecidableRel lt] (l : List α) : (sorted lt l).Perm l :=
  List.mergeSort_perm ..

variable [IsStrictTotalOrder α lt]

theorem Enumerates.nodup {S : Set α} {l : List α} (h : Enumerates lt S l) : l.Nodup :=
  h.increasing.imp fun hlt => by
    rintro rfl
    exact Std.Irrefl.irrefl _ hlt

/-- **The order and the set determine the list.** -/
theorem Enumerates.unique {S : Set α} {l l' : List α} (h : Enumerates lt S l)
    (h' : Enumerates lt S l') : l = l' := by
  have hperm : l.Perm l' := (List.perm_ext_iff_of_nodup h.nodup h'.nodup).2 fun x => by
    rw [h.mem_iff, h'.mem_iff]
  refine hperm.eq_of_pairwise (fun a b _ _ hab hba => ?_) h.increasing h'.increasing
  exact absurd (trans_of lt hab hba) (Std.Irrefl.irrefl a)

/-- A larger set only adds elements to the list. -/
theorem Enumerates.sublist {S T : Set α} {l l' : List α} (h : Enumerates lt S l)
    (h' : Enumerates lt T l') (hsub : ∀ x, x ∈ S → x ∈ T) : l.Sublist l' := by
  classical
  have hfilter : Enumerates lt S (l'.filter fun x => x ∈ S) := by
    refine ⟨h'.increasing.filter _, fun x => ?_⟩
    rw [List.mem_filter, h'.mem_iff, decide_eq_true_iff]
    exact ⟨fun hx => hx.2, fun hx => ⟨hsub x hx, hx⟩⟩
  rw [h.unique hfilter]
  exact List.filter_sublist

/-- Not greater is less or equal. -/
theorem not_lt_iff {a b : α} : ¬ lt b a ↔ lt a b ∨ a = b := by
  constructor
  · intro h
    rcases trichotomous_of lt a b with hab | rfl | hba
    · exact .inl hab
    · exact .inr rfl
    · exact absurd hba h
  · rintro (hab | rfl) hba
    · exact Std.Irrefl.irrefl a (trans_of lt hab hba)
    · exact Std.Irrefl.irrefl a hba

theorem not_lt_trans {a b c : α} (hab : ¬ lt b a) (hbc : ¬ lt c b) : ¬ lt c a := by
  rw [not_lt_iff] at hab hbc ⊢
  rcases hab with hab | rfl
  · rcases hbc with hbc | rfl
    · exact .inl (trans_of lt hab hbc)
    · exact .inl hab
  · exact hbc

theorem pairwise_sorted (lt : α → α → Prop) [IsStrictTotalOrder α lt] [DecidableRel lt]
    (l : List α) : (sorted lt l).Pairwise fun a b => ¬ lt b a := by
  have h : (sorted lt l).Pairwise fun a b => (!decide (lt b a)) = true := List.pairwise_mergeSort
    (fun a b c hab hbc => by
      simp only [Bool.not_eq_true', decide_eq_false_iff_not] at *
      exact not_lt_trans hab hbc)
    (fun a b => by
      by_cases hba : lt b a
      · have hab : ¬ lt a b := not_lt_iff.2 (.inl hba)
        simp [hab]
      · simp [hba]) l
  exact h.imp fun hab => by simpa using hab

/-- Dropping adjacent duplicates of a sorted list drops all duplicates. -/
theorem unique_enumerates [DecidableEq α] {l : List α} (h : l.Pairwise fun a b => ¬ lt b a) :
    Enumerates lt {x | x ∈ l} (unique l) := by
  have hanti : Std.Antisymm fun a b : α => ¬ lt b a := ⟨fun a b hab hba => by
    rcases not_lt_iff.1 hab with hlt | heq
    · exact absurd hlt hba
    · exact heq⟩
  have hdedup : unique l = l.dedup := h.destutter_eq_dedup
  constructor
  · have hle : (unique l).Pairwise fun a b => ¬ lt b a := h.sublist (List.destutter_sublist _ l)
    have hne : (unique l).Pairwise (· ≠ ·) := by
      rw [hdedup]
      exact l.nodup_dedup
    apply (hle.and hne).imp
    intro a b hab
    exact (not_lt_iff.1 hab.1).resolve_right hab.2
  · intro x
    rw [hdedup]
    exact List.mem_dedup

/-- **Sorting and dropping adjacent duplicates enumerates the elements.** -/
theorem unique_sorted_enumerates [DecidableEq α] [DecidableRel lt] (l : List α) :
    Enumerates lt {x | x ∈ l} (unique (sorted lt l)) := by
  have h := unique_enumerates (pairwise_sorted lt l)
  refine ⟨h.increasing, fun x => ?_⟩
  rw [h.mem_iff]
  exact (sorted_perm l).mem_iff

/-- The sorting algorithm does not matter. -/
theorem unique_of_sorted_perm [DecidableEq α] [DecidableRel lt] {l l' : List α} (hperm : l'.Perm l)
    (h : l'.Pairwise fun a b => ¬ lt b a) : unique l' = unique (sorted lt l) := by
  have henum : Enumerates lt {x | x ∈ l} (unique (sorted lt l)) := unique_sorted_enumerates l
  refine (unique_enumerates h).unique ⟨henum.increasing, fun x => ?_⟩
  exact (henum.mem_iff x).trans hperm.mem_iff.symm

end SortedSet

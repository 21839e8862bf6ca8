import Mathlib.Data.List.TakeWhile

/-!
# Cutting a list at a separator, piece by piece

Over an arbitrary type with decidable equality.

* `cut` — the part before the first separator and the part after it; without a separator the
  whole list and nothing.
* `pieces` — cut until nothing is left.
* `pieces_eq` — **the pieces are the fields of the list, less an empty last field**: the loop
  cannot tell "no field left" from "one empty field left".
* `pieces_intercalate` — joining fields with the separator and cutting gives the fields.
-/

set_option autoImplicit false

namespace Fields

variable {α : Type} [DecidableEq α]

/-- The part before the first separator, and the rest behind it. -/
def cut (sep : α) (s : List α) : List α × List α :=
  (s.takeWhile (· != sep), (s.dropWhile (· != sep)).tail)

theorem bne_of_not_mem {sep : α} {s : List α} (h : sep ∉ s) : ∀ x ∈ s, (x != sep) = true := by
  intro x hx
  rw [bne_iff_ne]
  rintro rfl
  exact h hx

theorem cut_of_not_mem {sep : α} {s : List α} (h : sep ∉ s) : cut sep s = (s, []) := by
  rw [cut, List.takeWhile_eq_self_iff.2 (bne_of_not_mem h),
    List.dropWhile_eq_nil_iff.2 (bne_of_not_mem h), List.tail_nil]

theorem cut_append_cons {sep : α} {a : List α} (h : sep ∉ a) (r : List α) :
    cut sep (a ++ sep :: r) = (a, r) := by
  rw [cut, List.takeWhile_append_of_pos (bne_of_not_mem h),
    List.dropWhile_append_of_pos (bne_of_not_mem h)]
  simp

/-- A list has no separator, or a first one. -/
theorem first_separator (sep : α) (s : List α) :
    sep ∉ s ∨ ∃ a r, s = a ++ sep :: r ∧ sep ∉ a := by
  by_cases h : sep ∈ s
  · exact .inr (List.eq_append_cons_of_mem h)
  · exact .inl h

theorem cut_length (sep : α) {s : List α} (h : s ≠ []) : (cut sep s).2.length < s.length := by
  rcases first_separator sep s with hno | ⟨a, r, rfl, ha⟩
  · rw [cut_of_not_mem hno]
    exact List.length_pos_iff.2 h
  · rw [cut_append_cons ha]
    simp only [List.length_append, List.length_cons]
    omega

/-- Cut off the first piece until the rest is empty. -/
def pieces (sep : α) (s : List α) : List (List α) :=
  if h : s = [] then [] else
    have := cut_length sep h
    (cut sep s).1 :: pieces sep (cut sep s).2
termination_by s.length

@[simp] theorem pieces_nil (sep : α) : pieces sep [] = [] := by
  rw [pieces]
  rfl

theorem pieces_of_ne_nil {sep : α} {s : List α} (h : s ≠ []) :
    pieces sep s = (cut sep s).1 :: pieces sep (cut sep s).2 := by
  rw [pieces, dif_neg h]

theorem pieces_append_cons {sep : α} {a : List α} (h : sep ∉ a) (r : List α) :
    pieces sep (a ++ sep :: r) = a :: pieces sep r := by
  rw [pieces_of_ne_nil (by simp), cut_append_cons h]

theorem pieces_of_not_mem {sep : α} {s : List α} (h : sep ∉ s) (hne : s ≠ []) :
    pieces sep s = [s] := by
  rw [pieces_of_ne_nil hne, cut_of_not_mem h, pieces_nil]

theorem pieces_eq_nil_iff (sep : α) {s : List α} : pieces sep s = [] ↔ s = [] := by
  constructor
  · intro h
    by_contra hs
    rw [pieces_of_ne_nil hs] at h
    cases h
  · rintro rfl
    exact pieces_nil sep

/-- **The pieces are the fields, less an empty last one**; induction on the first field. -/
theorem pieces_eq (sep : α) (s : List α) :
    pieces sep s = if (s.splitOn sep).getLast? = some [] then (s.splitOn sep).dropLast
      else s.splitOn sep := by
  induction hn : s.length using Nat.strongRecOn generalizing s with
  | _ n ih =>
    rcases first_separator sep s with hno | ⟨a, r, rfl, ha⟩
    · rw [List.splitOn_eq_singleton hno]
      by_cases hs : s = []
      · subst hs
        simp
      · rw [pieces_of_not_mem hno hs]
        simp [hs]
    · have hlen : r.length < n := by
        simp only [List.length_append, List.length_cons] at hn
        omega
      have hne := List.splitOn_ne_nil sep r
      rw [pieces_append_cons ha, List.splitOn_append_cons_self_of_not_mem ha, ih _ hlen r rfl,
        List.getLast?_cons_of_ne_nil hne, List.dropLast_cons_of_ne_nil hne]
      split <;> rfl

theorem splitOn_eq_pieces {sep : α} {s : List α}
    (h : ¬ (s.splitOn sep).getLast? = some []) : s.splitOn sep = pieces sep s := by
  rw [pieces_eq, if_neg h]

/-- **Cutting undoes joining** if the last field is not empty. -/
theorem pieces_intercalate {sep : α} {fs : List (List α)} (hne : fs ≠ [])
    (hsep : ∀ f ∈ fs, sep ∉ f) (hlast : ¬ fs.getLast? = some []) :
    pieces sep ([sep].intercalate fs) = fs := by
  have hsplit := List.splitOn_intercalate sep hsep hne
  rw [← splitOn_eq_pieces, hsplit]
  rwa [hsplit]

end Fields

import Mathlib.Data.List.Lex
import Mathlib.Data.Prod.Lex
import RefactorCpp.Support.SortedSet
import RefactorCpp.Text

/-!
# Replacements, groups and builders

`replacementgroups.cpp`, `replacementbuilder.cpp` and `refactoringcontext.h`.  A match callback
records its replacements in a builder; the destructor of the builder hands them to the context
as one group.

* `ReplacementBuilder.destroy_recorded` — a destroyed builder adds its replacements after those
  of the context.
* `deduplicate_enumerates` — **`deduplicate` enumerates the set of replacements in the order of
  `operator<`**, for every strict total order.
-/

set_option autoImplicit false

namespace RefactorCpp

open SortedSet

/-- The four fields that `operator<` and `operator==` of a Clang replacement look at. -/
structure Replacement where
  filePath : Str
  offset : Nat
  length : Nat
  replacementText : Str
  deriving DecidableEq, Repr

/-- `notSafe` is the `Unsafe` of the source. -/
inductive Confidence where
  | safe
  | notSafe
  deriving DecidableEq, Repr

/-! ## Groups -/

/-- `class ReplacementGroup`. -/
structure ReplacementGroup where
  replacements : List Replacement := []
  confidence : Confidence := .notSafe
  deriving DecidableEq, Repr

/-- `ReplacementGroup::setConfidence`. -/
def ReplacementGroup.setConfidence (group : ReplacementGroup) (certainty : Confidence) :
    ReplacementGroup :=
  { group with confidence := certainty }

/-- `ReplacementGroup::addReplacement`. -/
def ReplacementGroup.addReplacement (group : ReplacementGroup) (replacement : Replacement) :
    ReplacementGroup :=
  { group with replacements := group.replacements ++ [replacement] }

/-- `ReplacementGroups`, a vector. -/
abbrev ReplacementGroups := List ReplacementGroup

/-- All replacements, group after group. -/
def getReplacements (groups : ReplacementGroups) : List Replacement :=
  groups.foldl (fun result group => result ++ group.replacements) []

theorem getReplacements_eq (groups : ReplacementGroups) :
    getReplacements groups = groups.flatMap ReplacementGroup.replacements :=
  List.flatMap_eq_foldl.symm

theorem getReplacements_push (groups : ReplacementGroups) (group : ReplacementGroup) :
    getReplacements (groups ++ [group]) = getReplacements groups ++ group.replacements := by
  rw [getReplacements_eq, getReplacements_eq, List.flatMap_append, List.flatMap_singleton]

/-! ## Builders -/

/-- The group under construction. -/
structure ReplacementBuilder where
  replacement : ReplacementGroup
  deriving DecidableEq, Repr

/-- The constructor of `ReplacementBuilder`. -/
def ReplacementBuilder.new (confidence : Confidence) : ReplacementBuilder :=
  ⟨({} : ReplacementGroup).setConfidence confidence⟩

/-- `ReplacementBuilder::replace`. -/
def ReplacementBuilder.replace (builder : ReplacementBuilder) (replacement : Replacement) :
    ReplacementBuilder :=
  ⟨builder.replacement.addReplacement replacement⟩

/-- The destructor, which also pushes an empty group. -/
def ReplacementBuilder.destroy (builder : ReplacementBuilder) (groups : ReplacementGroups) :
    ReplacementGroups :=
  groups ++ [builder.replacement]

theorem ReplacementBuilder.foldl_replace (builder : ReplacementBuilder) (rs : List Replacement) :
    (rs.foldl ReplacementBuilder.replace builder).replacement =
      { builder.replacement with replacements := builder.replacement.replacements ++ rs } := by
  induction rs generalizing builder with
  | nil => rw [List.foldl_nil, List.append_nil]
  | cons r rs ih =>
    rw [List.foldl_cons, ih]
    simp [ReplacementBuilder.replace, ReplacementGroup.addReplacement]

/-- **One builder, one group**: its replacements come last, in the order of the calls. -/
theorem ReplacementBuilder.destroy_recorded (confidence : Confidence) (rs : List Replacement)
    (groups : ReplacementGroups) :
    (rs.foldl ReplacementBuilder.replace (.new confidence)).destroy groups =
      groups ++ [⟨rs, confidence⟩] := by
  rw [ReplacementBuilder.destroy, ReplacementBuilder.foldl_replace]
  rfl

/-! ## The context -/

/-- `class RefactoringContext`. -/
structure RefactoringContext where
  replacements : ReplacementGroups := []
  deriving DecidableEq, Repr

/-- Everything recorded so far. -/
def RefactoringContext.recorded (context : RefactoringContext) : List Replacement :=
  getReplacements context.replacements

/-! ## Removing duplicates -/

section Deduplicate

variable (less : Replacement → Replacement → Prop) [DecidableRel less]

/-- `std::sort`, then `std::unique` with `erase`. -/
def deduplicate (container : List Replacement) : List Replacement :=
  unique (sorted less container)

variable [IsStrictTotalOrder Replacement less]

/-- **Every replacement once, in increasing order.** -/
theorem deduplicate_enumerates (container : List Replacement) :
    Enumerates less {r | r ∈ container} (deduplicate less container) :=
  unique_sorted_enumerates container

/-- `std::sort` is free in its choice of algorithm. -/
theorem deduplicate_of_sorted_perm {container container' : List Replacement}
    (hperm : container'.Perm container) (h : container'.Pairwise fun r r' => ¬ less r' r) :
    unique container' = deduplicate less container :=
  unique_of_sorted_perm hperm h

/-- Only the set of replacements counts. -/
theorem deduplicate_congr {container container' : List Replacement}
    (h : ∀ r, r ∈ container ↔ r ∈ container') :
    deduplicate less container = deduplicate less container' := by
  apply (deduplicate_enumerates less container).unique
  have henum := deduplicate_enumerates less container'
  exact ⟨henum.increasing, fun r => (henum.mem_iff r).trans (h r).symm⟩

end Deduplicate

/-! ## The order of the offsets -/

/-- Offset, length, path and text, compared in this order. -/
def Replacement.key (r : Replacement) : ℕ ×ₗ ℕ ×ₗ List ℕ ×ₗ List ℕ :=
  toLex (r.offset, toLex (r.length,
    toLex (r.filePath.map UInt8.toNat, r.replacementText.map UInt8.toNat)))

theorem Replacement.key_injective : Function.Injective Replacement.key := by
  intro r r' h
  have hbytes : Function.Injective (List.map UInt8.toNat) :=
    List.map_injective_iff.2 fun a b => UInt8.toNat_inj.1
  simp only [key, toLex_inj, Prod.mk.injEq] at h
  obtain ⟨hoffset, hlength, hpath, htext⟩ := h
  cases r
  cases r'
  simp only [Replacement.mk.injEq]
  exact ⟨hbytes hpath, hoffset, hlength, hbytes htext⟩

/-- A strict total order of replacements, as Clang's `operator<` is one. -/
def Replacement.less (r r' : Replacement) : Prop := r.key < r'.key

instance : DecidableRel Replacement.less := fun r r' => inferInstanceAs (Decidable (r.key < r'.key))

instance : IsStrictTotalOrder Replacement Replacement.less where
  trichotomous _ _ h h' := Replacement.key_injective (le_antisymm (not_lt.1 h') (not_lt.1 h))
  irrefl r := lt_irrefl r.key
  trans _ _ _ h h' := lt_trans (α := ℕ ×ₗ ℕ ×ₗ List ℕ ×ₗ List ℕ) h h'

end RefactorCpp

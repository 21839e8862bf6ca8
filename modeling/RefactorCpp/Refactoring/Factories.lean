import RefactorCpp.Refactoring.Args
import RefactorCpp.Support.Insertions

/-!
# Refactoring factories

`refactoringmodule.h`, `refactoringmodule.cpp` and `renamemodule.cpp`.  A module registers its
refactorings under their names; `create` makes one from its arguments.

* `create_registerRefactoring` — the factory registered last under a name is the one that is used.
* `create_rename_function` — **the registered modules make `RenameFunction`s**, never a null
  pointer.
* `create_registerAll_last`, `create_registerAll_of_not_mem` — what is made after a sequence of
  registrations.
* `nullsAreUnknown_iff` — when a null pointer says that the name is unknown.
* `size_registerAll` — `size` returns a `bool`, so it does not count beyond one.
* `behavesAsMap_iff` — **when the observers are those of a finite map**.
-/

set_option autoImplicit false

namespace RefactorCpp

open Insertions

variable {ρ : Type}

/-- A function that makes a refactoring of type `ρ`.  It may throw, and it may return the null
    pointer. -/
abbrev RefactoringFactory (ρ : Type) := Str → RefactoringArgs → Except StdException (Option ρ)

/-- The `StringMap` is a finite map: a list of entries with different keys. -/
structure RefactoringFactories (ρ : Type) where
  factories : AList fun _ : Str => RefactoringFactory ρ := ∅

/-- `RefactoringFactories::registerRefactoring`. -/
def RefactoringFactories.registerRefactoring (factories : RefactoringFactories ρ) (name : Str)
    (factory : RefactoringFactory ρ) : RefactoringFactories ρ :=
  ⟨factories.factories.insert name factory⟩

/-- `RefactoringFactories::create`.  An unknown name gives the null pointer. -/
def RefactoringFactories.create (factories : RefactoringFactories ρ) (name : Str)
    (args : RefactoringArgs) : Except StdException (Option ρ) :=
  match factories.factories.lookup name with
  | none => .ok none
  | some factory => factory name args

/-- What lies between `begin()` and `end()`. -/
def RefactoringFactories.elements (factories : RefactoringFactories ρ) :
    List (Sigma fun _ : Str => RefactoringFactory ρ) :=
  factories.factories.entries

/-- `RefactoringFactories::empty`. -/
def RefactoringFactories.empty (factories : RefactoringFactories ρ) : Bool :=
  factories.elements.isEmpty

/-- The number of entries converted to the return type `bool`. -/
def RefactoringFactories.size (factories : RefactoringFactories ρ) : Bool :=
  decide (factories.elements.length ≠ 0)

/-- A module with its `addFactories`. -/
structure RefactoringModule (ρ : Type) where
  addFactories : RefactoringFactories ρ → RefactoringFactories ρ

/-- The factory of a class whose constructor may throw; `std::make_unique` is never null. -/
def makeUnique (new : Str → RefactoringArgs → Except StdException ρ) : RefactoringFactory ρ :=
  fun name args => (new name args).map some

/-- `RenameModule::addFactories`. -/
def renameModule : RefactoringModule RenameFunction :=
  ⟨fun factories =>
    factories.registerRefactoring (bytes "rename-function") (makeUnique RenameFunction.new)⟩

/-- `RefactoringModuleRegistry::entries()`. -/
def entries : List (RefactoringModule RenameFunction) := [renameModule]

/-- The factories of all modules, as `main` collects them. -/
def getFactories : RefactoringFactories RenameFunction :=
  entries.foldl (fun factories module => module.addFactories factories) {}

/-- **The last registration counts**, and other names are not touched. -/
theorem create_registerRefactoring (factories : RefactoringFactories ρ) (name : Str)
    (factory : RefactoringFactory ρ) (name' : Str) (args : RefactoringArgs) :
    (factories.registerRefactoring name factory).create name' args =
      if name' = name then factory name' args else factories.create name' args := by
  unfold RefactoringFactories.create RefactoringFactories.registerRefactoring
  rw [lookup_insert_eq]
  by_cases h : name' = name
  · rw [if_pos h, if_pos h]
  · rw [if_neg h, if_neg h]

theorem create_rename_function (args : RefactoringArgs) :
    getFactories.create (bytes "rename-function") args =
      (RenameFunction.new (bytes "rename-function") args).map some := by
  show (RefactoringFactories.registerRefactoring {} _ _).create _ args = _
  rw [create_registerRefactoring, if_pos rfl]
  rfl

/-! ## Sequences of registrations -/

/-- Calls of `registerRefactoring`, one after the other. -/
def RefactoringFactories.registerAll (factories : RefactoringFactories ρ)
    (calls : List (Str × RefactoringFactory ρ)) : RefactoringFactories ρ :=
  calls.foldl (fun factories call => factories.registerRefactoring call.1 call.2) factories

theorem factories_registerAll (factories : RefactoringFactories ρ)
    (calls : List (Str × RefactoringFactory ρ)) :
    (factories.registerAll calls).factories = insertAll factories.factories calls := by
  induction calls generalizing factories with
  | nil => rfl
  | cons call calls ih => exact ih (factories.registerRefactoring call.1 call.2)

/-- **What the last registration of a name makes.** -/
theorem create_registerAll_last (factories : RefactoringFactories ρ)
    (before : List (Str × RefactoringFactory ρ)) (name : Str) (factory : RefactoringFactory ρ)
    {after : List (Str × RefactoringFactory ρ)} (h : name ∉ after.map Prod.fst)
    (args : RefactoringArgs) :
    (factories.registerAll (before ++ (name, factory) :: after)).create name args =
      factory name args := by
  rw [RefactoringFactories.create, factories_registerAll, lookup_insertAll_last _ _ _ _ h]

/-- **A name that was never registered** gives the null pointer. -/
theorem create_registerAll_of_not_mem {calls : List (Str × RefactoringFactory ρ)} {name : Str}
    (h : name ∉ calls.map Prod.fst) (args : RefactoringArgs) :
    (RefactoringFactories.registerAll {} calls).create name args = .ok none := by
  rw [RefactoringFactories.create, factories_registerAll, lookup_insertAll_of_not_mem h]
  rfl

/-- The factory that is registered last under a name never returns the null pointer. -/
def MakesNonNull (calls : List (Str × RefactoringFactory ρ)) : Prop :=
  ∀ before name factory after, calls = before ++ (name, factory) :: after →
    name ∉ after.map Prod.fst → ∀ args, factory name args ≠ .ok none

/-- **The null pointer says that a name is unknown** as long as no factory returns it. -/
theorem nullsAreUnknown_iff (calls : List (Str × RefactoringFactory ρ)) :
    (∀ name args, (RefactoringFactories.registerAll {} calls).create name args = .ok none ↔
      name ∉ calls.map Prod.fst) ↔ MakesNonNull calls := by
  constructor
  · rintro hnull before name factory after rfl hafter args hargs
    rw [← create_registerAll_last {} before name factory hafter args] at hargs
    exact (hnull name args).1 hargs (by simp)
  · intro hnull name args
    refine ⟨fun hcreate hmem => ?_, fun h => create_registerAll_of_not_mem h args⟩
    -- the last of the calls that register the name
    obtain ⟨before, factory, after, rfl, hafter⟩ := exists_last_insertion hmem
    rw [create_registerAll_last {} before name factory hafter args] at hcreate
    exact hnull before name factory after rfl hafter args hcreate

theorem length_elements_registerAll (calls : List (Str × RefactoringFactory ρ)) :
    (RefactoringFactories.registerAll {} calls).elements.length =
      (calls.map Prod.fst).toFinset.card := by
  rw [← length_keys_insertAll, RefactoringFactories.elements, factories_registerAll]
  exact (List.length_map _).symm

/-- **`size` is at most one**, whatever was registered. -/
theorem size_registerAll (calls : List (Str × RefactoringFactory ρ)) :
    (RefactoringFactories.registerAll {} calls).size.toNat =
      min 1 (calls.map Prod.fst).toFinset.card := by
  rw [RefactoringFactories.size, length_elements_registerAll]
  cases (calls.map Prod.fst).toFinset.card with
  | zero => rfl
  | succ n => simp

theorem empty_iff_size (factories : RefactoringFactories ρ) :
    factories.empty = true ↔ factories.size.toNat = 0 := by
  unfold RefactoringFactories.empty RefactoringFactories.size
  cases factories.elements with
  | nil => simp
  | cons e es => simp

/-- What all observers say after a sequence of registrations, if the factories are a finite map. -/
structure BehavesAsMap (calls : List (Str × RefactoringFactory ρ)) : Prop where
  create_last : ∀ before name factory after args, calls = before ++ (name, factory) :: after →
    name ∉ after.map Prod.fst →
      (RefactoringFactories.registerAll {} calls).create name args = factory name args
  create_null : ∀ name args,
    (RefactoringFactories.registerAll {} calls).create name args = .ok none ↔
      name ∉ calls.map Prod.fst
  create_other : ∀ name factory name' args, name' ≠ name →
    ((RefactoringFactories.registerAll {} calls).registerRefactoring name factory).create name'
      args = (RefactoringFactories.registerAll {} calls).create name' args
  size_names : (RefactoringFactories.registerAll {} calls).size.toNat =
    (calls.map Prod.fst).toFinset.card
  size_elements : (RefactoringFactories.registerAll {} calls).size.toNat =
    (RefactoringFactories.registerAll {} calls).elements.length
  empty_size : (RefactoringFactories.registerAll {} calls).empty = true ↔
    (RefactoringFactories.registerAll {} calls).size.toNat = 0

/-- One name, or none. -/
theorem card_names_le_one_iff (calls : List (Str × RefactoringFactory ρ)) :
    (calls.map Prod.fst).toFinset.card ≤ 1 ↔ ∀ c ∈ calls, ∀ d ∈ calls, c.1 = d.1 := by
  rw [Finset.card_le_one]
  simp only [List.mem_toFinset, List.mem_map]
  constructor
  · intro h c hc d hd
    exact h _ ⟨c, hc, rfl⟩ _ ⟨d, hd, rfl⟩
  · rintro h _ ⟨c, hc, rfl⟩ _ ⟨d, hd, rfl⟩
    exact h c hc d hd

/-- **The factories are a finite map** as long as only one name is registered and the factory in
    use never returns the null pointer: with a second name `size` is too small, and a null
    pointer that a factory returns looks like an unknown name. -/
theorem behavesAsMap_iff (calls : List (Str × RefactoringFactory ρ)) :
    BehavesAsMap calls ↔ (∀ c ∈ calls, ∀ d ∈ calls, c.1 = d.1) ∧ MakesNonNull calls := by
  have hsize := size_registerAll calls
  rw [← card_names_le_one_iff, ← nullsAreUnknown_iff]
  constructor
  · intro h
    refine ⟨?_, h.create_null⟩
    rw [← h.size_names, hsize]
    exact Nat.min_le_left _ _
  · rintro ⟨hone, hnull⟩
    rw [Nat.min_eq_right hone] at hsize
    constructor
    · rintro before name factory after args rfl hafter
      exact create_registerAll_last {} before name factory hafter args
    · exact hnull
    · intro name factory name' args hne
      rw [create_registerRefactoring, if_neg hne]
    · exact hsize
    · rw [hsize, length_elements_registerAll]
    · exact empty_iff_size _

/-- Two names are registered, and `size()` is one. -/
theorem not_behavesAsMap_two_names :
    ¬ BehavesAsMap [(bytes "rename-function", makeUnique RenameFunction.new),
      (bytes "rename-variable", makeUnique RenameFunction.new)] := by
  intro h
  have hnames := h.size_names
  rw [size_registerAll] at hnames
  revert hnames
  decide

end RefactorCpp

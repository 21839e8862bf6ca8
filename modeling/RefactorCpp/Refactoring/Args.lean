import Mathlib.Data.List.DropRight
import RefactorCpp.Support.Fields
import RefactorCpp.Support.Runs
import RefactorCpp.Text

/-!
# Refactoring arguments

`refactoringargs.cpp` with the `Support::split` of `strings.h`, and the constructor of
`RenameFunction`.

* `split_eq_foldlM` — the loop calls the function on the pieces of the string in order.
* `fromString_eq` — the arguments are the trimmed pieces, or the one error.
* `fromString_intercalate` — **padded arguments joined by commas are read back**.
* `fromArgument_cases` — when a `-rename-function` value makes a refactoring.
* `fromArgument_rejects_iff` — **which malformed lists are accepted**: the loop stops at the
  empty rest, so a comma after the second name goes unseen.
-/

set_option autoImplicit false

namespace RefactorCpp

open Fields Runs

/-- `Support::split`; `cut` is `StringRef::split(char)`.  The state is what `func` captures. -/
def split {σ : Type} (string : Str) (sep : Byte) (func : σ → Str → Except StdException σ)
    (state : σ) : Except StdException σ :=
  if h : string = [] then .ok state else
    have := cut_length sep h
    match func state (cut sep string).1 with
    | .error e => .error e
    | .ok state => split (cut sep string).2 sep func state
termination_by string.length

/-- The characters of `" \t\n\r"`. -/
def isBlank (c : Byte) : Bool := c == 0x20 || c == 0x09 || c == 0x0A || c == 0x0D

/-- `StringRef::trim`. -/
def trim (s : Str) : Str := (s.dropWhile isBlank).rdropWhile isBlank

/-- `class RefactoringArgs`. -/
structure RefactoringArgs where
  args : List Str := []
  options : List (Str × Str) := []
  deriving DecidableEq, Repr

/-- One call of the lambda in `fromString`. -/
def pushArgument (args : List Str) (arg : Str) : Except StdException (List Str) :=
  if (trim arg).isEmpty then .error (.invalidArgument (bytes "empty argument"))
  else .ok (args ++ [trim arg])

/-- `RefactoringArgs::fromString`. -/
def fromString (argsStr : Str) : Except StdException RefactoringArgs :=
  match split argsStr 0x2C pushArgument [] with
  | .error e => .error e
  | .ok args => .ok ⟨args, []⟩

/-- `class RenameFunction`. -/
structure RenameFunction where
  name : Str
  oldName : Str
  newName : Str
  allowUnsafe : Bool := false
  deriving DecidableEq, Repr

/-- The constructor of `RenameFunction`. -/
def RenameFunction.new (name : Str) (allargs : RefactoringArgs) :
    Except StdException RenameFunction :=
  match allargs.args with
  | [definition, newName] =>
    .ok {
      name := name
      oldName :=
        if (bytes "::").isPrefixOf definition then definition else bytes "::" ++ definition
      newName := newName }
  | _ => .error (.invalidArgument (bytes
      "-rename-function: Failed to parse parameters.\nSyntax: -rename-function OLD,NEW"))

/-- `RefactoringArgs::fromString` and then the constructor. -/
def RenameFunction.fromArgument (name argsStr : Str) : Except StdException RenameFunction :=
  match fromString argsStr with
  | .error e => .error e
  | .ok args => RenameFunction.new name args

/-! ## The loop -/

theorem split_eq_foldlM {σ : Type} (string : Str) (sep : Byte)
    (func : σ → Str → Except StdException σ) (state : σ) :
    split string sep func state = (pieces sep string).foldlM func state := by
  induction hn : string.length using Nat.strongRecOn generalizing string state with
  | _ n ih =>
    rw [split]
    split
    · rename_i hs
      subst hs
      rw [pieces_nil]
      rfl
    · rename_i hs
      rw [pieces_of_ne_nil hs, List.foldlM_cons]
      cases func state (cut sep string).1 with
      | error e => rfl
      | ok next => exact ih _ (hn ▸ cut_length sep hs) _ next rfl

/-- No piece is blank. -/
def noBlank (ps : List Str) : Bool := ps.all fun p => !(trim p).isEmpty

theorem noBlank_iff {ps : List Str} : noBlank ps = true ↔ ∀ p ∈ ps, trim p ≠ [] := by
  simp [noBlank]

/-- Arguments are pushed until the first blank piece. -/
theorem foldlM_pushArgument (ps args : List Str) :
    ps.foldlM pushArgument args =
      if noBlank ps then .ok (args ++ ps.map trim)
      else .error (.invalidArgument (bytes "empty argument")) := by
  induction ps generalizing args with
  | nil =>
    rw [List.map_nil, List.append_nil]
    rfl
  | cons p ps ih =>
    rw [List.foldlM_cons, pushArgument, noBlank, List.all_cons]
    cases hp : (trim p).isEmpty with
    | true => rfl
    | false =>
      show ps.foldlM pushArgument (args ++ [trim p]) = _
      rw [ih, List.append_assoc]
      rfl

/-- **The arguments are the trimmed pieces**, unless one of them is blank. -/
theorem fromString_eq (s : Str) :
    fromString s =
      if noBlank (pieces 0x2C s) then .ok ⟨(pieces 0x2C s).map trim, []⟩
      else .error (.invalidArgument (bytes "empty argument")) := by
  unfold fromString
  rw [split_eq_foldlM, foldlM_pushArgument]
  cases noBlank (pieces 0x2C s) with
  | true => rfl
  | false => rfl

/-! ## Encoded arguments -/

/-- `trim` takes the blanks off both ends, and no more. -/
theorem trim_padded {left arg right : Str} (hleft : ∀ c ∈ left, isBlank c = true)
    (hright : ∀ c ∈ right, isBlank c = true) (hne : arg ≠ [])
    (hhead : ∀ c ∈ arg.head?, isBlank c = false)
    (hlast : ∀ c ∈ arg.getLast?, isBlank c = false) : trim (left ++ arg ++ right) = arg := by
  have hstart : startsIn isBlank (arg ++ right) = false := by
    obtain ⟨c, r, rfl⟩ := List.exists_cons_of_ne_nil hne
    exact hhead c rfl
  have hstop : startsIn isBlank arg.reverse = false := by
    apply startsIn_of_head?
    rwa [List.head?_reverse]
  have hright' : ∀ c ∈ right.reverse, isBlank c = true := fun c hc =>
    hright c (List.mem_reverse.1 hc)
  unfold trim List.rdropWhile
  rw [List.append_assoc, dropWhile_run hleft hstart, List.reverse_append,
    dropWhile_run hright' hstop, List.reverse_reverse]

/-- An argument as a list may hold it, with blanks on both sides. -/
structure PaddedArgument where
  left : Str
  arg : Str
  right : Str
  left_blank : ∀ c ∈ left, isBlank c = true
  right_blank : ∀ c ∈ right, isBlank c = true
  arg_ne_nil : arg ≠ []
  no_comma : 0x2C ∉ arg
  head_not_blank : ∀ c ∈ arg.head?, isBlank c = false
  last_not_blank : ∀ c ∈ arg.getLast?, isBlank c = false

/-- The argument as it is written. -/
def PaddedArgument.text (a : PaddedArgument) : Str := a.left ++ a.arg ++ a.right

theorem PaddedArgument.trim_text (a : PaddedArgument) : trim a.text = a.arg :=
  trim_padded a.left_blank a.right_blank a.arg_ne_nil a.head_not_blank a.last_not_blank

theorem PaddedArgument.text_ne_nil (a : PaddedArgument) : a.text ≠ [] := by
  intro h
  have htrim := a.trim_text
  rw [h] at htrim
  exact a.arg_ne_nil htrim.symm

/-- A comma is no blank, so the padding has none either. -/
theorem PaddedArgument.comma_not_mem_text (a : PaddedArgument) : 0x2C ∉ a.text := by
  intro h
  rcases List.mem_append.1 h with h | h
  · rcases List.mem_append.1 h with h | h
    · have := a.left_blank _ h
      revert this
      decide
    · exact a.no_comma h
  · have := a.right_blank _ h
    revert this
    decide

/-- **Padded arguments joined by commas** are read back without the padding. -/
theorem fromString_intercalate (args : List PaddedArgument) (hne : args ≠ []) :
    fromString ([0x2C].intercalate (args.map PaddedArgument.text)) =
      .ok ⟨args.map PaddedArgument.arg, []⟩ := by
  have hpieces : pieces 0x2C ([0x2C].intercalate (args.map PaddedArgument.text)) =
      args.map PaddedArgument.text := by
    apply pieces_intercalate
    · simpa using hne
    · intro f hf
      obtain ⟨a, -, rfl⟩ := List.mem_map.1 hf
      exact a.comma_not_mem_text
    · intro hlast
      obtain ⟨a, -, ha⟩ := List.mem_map.1 (List.mem_of_getLast? hlast)
      exact a.text_ne_nil ha
  have hblank : noBlank (args.map PaddedArgument.text) = true := by
    apply noBlank_iff.2
    intro p hp
    obtain ⟨a, -, rfl⟩ := List.mem_map.1 hp
    rw [a.trim_text]
    exact a.arg_ne_nil
  have htrim : trim ∘ PaddedArgument.text = PaddedArgument.arg := funext PaddedArgument.trim_text
  rw [fromString_eq, hpieces, if_pos hblank, List.map_map, htrim]

/-- ` a b` and `c` with a tab and a line feed around it. -/
theorem fromString_intercalate_a_b :
    fromString (bytes " a b,\tc\n") = .ok ⟨[bytes "a b", bytes "c"], []⟩ :=
  fromString_intercalate
    [⟨bytes " ", bytes "a b", [], by decide, by decide, by decide, by decide, by decide, by decide⟩,
      ⟨bytes "\t", bytes "c", bytes "\n", by decide, by decide, by decide, by decide, by decide,
        by decide⟩] (by decide)

/-! ## Rename a function -/

/-- The constructor takes exactly two arguments. -/
theorem RenameFunction.new_cases (name : Str) (allargs : RefactoringArgs) :
    if allargs.args.length = 2 then ∃ r, RenameFunction.new name allargs = .ok r
    else ∃ what, RenameFunction.new name allargs = .error (.invalidArgument what) := by
  split
  · rename_i hlen
    obtain ⟨definition, newName, hargs⟩ := List.length_eq_two.1 hlen
    rw [RenameFunction.new, hargs]
    exact ⟨_, rfl⟩
  · rename_i hlen
    unfold RenameFunction.new
    split
    · rename_i hargs
      rw [hargs] at hlen
      exact absurd rfl hlen
    · exact ⟨_, rfl⟩

/-- **What a `-rename-function` value makes**: a refactoring of two pieces, none of them blank,
    or an invalid argument. -/
theorem RenameFunction.fromArgument_cases (name s : Str) :
    if (pieces 0x2C s).length = 2 ∧ noBlank (pieces 0x2C s) = true then
      ∃ r, RenameFunction.fromArgument name s = .ok r
    else ∃ what, RenameFunction.fromArgument name s = .error (.invalidArgument what) := by
  unfold RenameFunction.fromArgument
  rw [fromString_eq]
  cases hblank : noBlank (pieces 0x2C s) with
  | false =>
    rw [if_neg (by simp)]
    exact ⟨_, rfl⟩
  | true =>
    have h := RenameFunction.new_cases name ⟨(pieces 0x2C s).map trim, []⟩
    rw [List.length_map] at h
    simpa using h

/-- A value is accepted or rejected, not both. -/
theorem RenameFunction.not_ok_of_error {name s : Str}
    (h : ∃ what, RenameFunction.fromArgument name s = .error (.invalidArgument what)) :
    ¬ ∃ r, RenameFunction.fromArgument name s = .ok r := by
  rintro ⟨r, hr⟩
  obtain ⟨what, hwhat⟩ := h
  rw [hr] at hwhat
  cases hwhat

/-- Exactly two fields, and both have a character that is not blank. -/
def WellFormed (s : Str) : Prop :=
  (s.splitOn 0x2C).length = 2 ∧ ∀ f ∈ s.splitOn 0x2C, trim f ≠ []

/-- Two filled fields and a comma after the second. -/
def TrailingComma (s : Str) : Prop :=
  ∃ a b, s = a ++ 0x2C :: (b ++ [0x2C]) ∧ 0x2C ∉ a ∧ 0x2C ∉ b ∧ trim a ≠ [] ∧ trim b ≠ []

theorem trailingComma_iff {s : Str} (h : (s.splitOn 0x2C).getLast? = some []) :
    TrailingComma s ↔ (pieces 0x2C s).length = 2 ∧ noBlank (pieces 0x2C s) = true := by
  constructor
  · rintro ⟨a, b, rfl, ha, hb, hta, htb⟩
    rw [pieces_append_cons ha, pieces_append_cons hb, pieces_nil]
    exact ⟨rfl, noBlank_iff.2 (by simp [hta, htb])⟩
  · rintro ⟨hlen, hblank⟩
    have hfilled := noBlank_iff.1 hblank
    rcases first_separator 0x2C s with hno | ⟨a, r, rfl, ha⟩
    · -- one field, which is the last one
      rw [List.splitOn_eq_singleton hno, List.getLast?_singleton, Option.some.injEq] at h
      rw [h, pieces_nil] at hlen
      cases hlen
    · rw [pieces_append_cons ha] at hlen hfilled
      rw [List.splitOn_append_cons_self_of_not_mem ha,
        List.getLast?_cons_of_ne_nil (List.splitOn_ne_nil _ r)] at h
      rcases first_separator 0x2C r with hno | ⟨b, t, rfl, hb⟩
      · rw [List.splitOn_eq_singleton hno, List.getLast?_singleton, Option.some.injEq] at h
        rw [h, pieces_nil] at hlen
        cases hlen
      · rw [pieces_append_cons hb] at hlen hfilled
        obtain rfl : t = [] := by
          rw [← pieces_eq_nil_iff (0x2C : Byte)]
          simpa using hlen
        exact ⟨a, b, rfl, ha, hb, hfilled a (by simp), hfilled b (by simp)⟩

/-- **The malformed lists that are accepted** are those with one comma too many at the end. -/
theorem RenameFunction.fromArgument_rejects_iff (name s : Str) :
    (((∃ r, RenameFunction.fromArgument name s = .ok r) → WellFormed s) ∧
      (¬ WellFormed s →
        ∃ what, RenameFunction.fromArgument name s = .error (.invalidArgument what))) ↔
      ¬ TrailingComma s := by
  have hcases := RenameFunction.fromArgument_cases name s
  by_cases hlast : (s.splitOn 0x2C).getLast? = some []
  · -- an empty last field: the list is malformed, and the loop does not see it
    have hbad : ¬ WellFormed s := fun h => h.2 [] (List.mem_of_getLast? hlast) rfl
    rw [trailingComma_iff hlast]
    constructor
    · rintro ⟨hok, -⟩ hpieces
      rw [if_pos hpieces] at hcases
      exact hbad (hok hcases)
    · intro hpieces
      rw [if_neg hpieces] at hcases
      exact ⟨fun hok => absurd hok (not_ok_of_error hcases), fun _ => hcases⟩
  · -- the pieces are the fields
    have hsplit := splitOn_eq_pieces hlast
    have hiff : WellFormed s ↔ (pieces 0x2C s).length = 2 ∧ noBlank (pieces 0x2C s) = true := by
      unfold WellFormed
      rw [hsplit, noBlank_iff]
    have hno : ¬ TrailingComma s := by
      rintro ⟨a, b, rfl, ha, hb, -, -⟩
      apply hlast
      rw [List.splitOn_append_cons_self_of_not_mem ha, List.splitOn_append_cons_self_of_not_mem hb]
      rfl
    refine iff_of_true ?_ hno
    rw [hiff]
    by_cases hpieces : (pieces 0x2C s).length = 2 ∧ noBlank (pieces 0x2C s) = true
    · exact ⟨fun _ => hpieces, fun h => absurd hpieces h⟩
    · rw [if_neg hpieces] at hcases
      exact ⟨fun hok => absurd hok (not_ok_of_error hcases), fun _ => hcases⟩

/-- The third field of `a,b,` is empty, and the list is accepted. -/
theorem RenameFunction.fromArgument_trailing_comma :
    (∃ r, RenameFunction.fromArgument (bytes "rename-function") (bytes "a,b,") = .ok r) ∧
    (bytes "a,b,").splitOn 0x2C = [bytes "a", bytes "b", []] ∧ ¬ WellFormed (bytes "a,b,") := by
  have hpieces : pieces 0x2C (bytes "a,b,") = [bytes "a", bytes "b"] := by
    rw [show bytes "a,b," = bytes "a" ++ 0x2C :: (bytes "b" ++ [0x2C]) by decide,
      pieces_append_cons (by decide), pieces_append_cons (by decide), pieces_nil]
  have hsplit : (bytes "a,b,").splitOn 0x2C = [bytes "a", bytes "b", []] := by decide
  have hcases := RenameFunction.fromArgument_cases (bytes "rename-function") (bytes "a,b,")
  rw [hpieces, if_pos (by decide)] at hcases
  refine ⟨hcases, hsplit, ?_⟩
  rintro ⟨hlen, -⟩
  rw [hsplit] at hlen
  cases hlen

end RefactorCpp

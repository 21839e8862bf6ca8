import Mathlib.Data.List.Basic

/-!
# Byte strings and ASCII character classes

`llvm::StringRef` and `std::string` values are lists of bytes.  The character classes are
those of the C locale: a byte outside ASCII belongs to none of them, and `lower` / `upper`
leave it alone.
-/

set_option autoImplicit false

namespace RefactorCpp

/-- `char`, without a sign. -/
abbrev Byte := UInt8

/-- `std::string` and `StringRef`. -/
abbrev Str := List Byte

/-- A property of all bytes of a string is decided on the string, not on all 256 bytes. -/
instance (priority := high) decidableForallMem (p : Byte → Prop) [DecidablePred p] (s : Str) :
    Decidable (∀ x ∈ s, p x) :=
  List.decidableBAll p s

/-- The same for an optional byte. -/
instance (priority := high) decidableForallMemOption (p : Byte → Prop) [DecidablePred p]
    (o : Option Byte) : Decidable (∀ x ∈ o, p x) :=
  Option.decidableForallMem o

/-- The bytes of a source literal. -/
def bytes (s : String) : Str := s.toList.map fun c => c.toNat.toUInt8

/-- `ascii::digit`. -/
def isDigit (c : Byte) : Bool := 0x30 ≤ c && c ≤ 0x39

/-- `ascii::upper`. -/
def isUpper (c : Byte) : Bool := 0x41 ≤ c && c ≤ 0x5A

/-- `ascii::lower`. -/
def isLower (c : Byte) : Bool := 0x61 ≤ c && c ≤ 0x7A

/-- `ascii::alpha`. -/
def isAlpha (c : Byte) : Bool := isUpper c || isLower c

/-- `ascii::alnum`. -/
def isAlnum (c : Byte) : Bool := isAlpha c || isDigit c

/-- `ascii::space`: blank, tab, line feed, vertical tab, form feed, carriage return. -/
def isSpace (c : Byte) : Bool := c == 0x20 || (0x09 ≤ c && c ≤ 0x0D)

/-- One byte of `StringRef::lower`. -/
def toLower (c : Byte) : Byte := if isUpper c then c + 0x20 else c

/-- `std::toupper`, and one byte of `StringRef::upper`. -/
def toUpper (c : Byte) : Byte := if isLower c then c - 0x20 else c

/-- `StringRef::lower`. -/
def lower (s : Str) : Str := s.map toLower

/-- `StringRef::upper`. -/
def upper (s : Str) : Str := s.map toUpper

/-- `std::invalid_argument` and `std::runtime_error`. -/
inductive StdException where
  | invalidArgument (what : Str)
  | runtimeError (what : Str)
  deriving DecidableEq, Repr

/-- `std::exception::what`. -/
def StdException.what : StdException → Str
  | .invalidArgument what => what
  | .runtimeError what => what

/-! ## The classes are disjoint -/

theorem isLower_of_isUpper {c : Byte} (h : isUpper c = true) : isLower c = false := by
  simp only [isUpper, isLower, Bool.and_eq_true, decide_eq_true_eq, UInt8.le_iff_toNat_le,
    Bool.and_eq_false_iff, decide_eq_false_iff_not, UInt8.reduceToNat] at *
  omega

theorem isDigit_of_isUpper {c : Byte} (h : isUpper c = true) : isDigit c = false := by
  simp only [isUpper, isDigit, Bool.and_eq_true, decide_eq_true_eq, UInt8.le_iff_toNat_le,
    Bool.and_eq_false_iff, decide_eq_false_iff_not, UInt8.reduceToNat] at *
  omega

theorem isDigit_of_isLower {c : Byte} (h : isLower c = true) : isDigit c = false := by
  simp only [isLower, isDigit, Bool.and_eq_true, decide_eq_true_eq, UInt8.le_iff_toNat_le,
    Bool.and_eq_false_iff, decide_eq_false_iff_not, UInt8.reduceToNat] at *
  omega

theorem isLower_toLower_of_isUpper {c : Byte} (h : isUpper c = true) :
    isLower (toLower c) = true := by
  simp only [toLower, h, if_true]
  simp only [isUpper, isLower, Bool.and_eq_true, decide_eq_true_eq, UInt8.le_iff_toNat_le,
    UInt8.reduceToNat, UInt8.toNat_add] at *
  omega

theorem isUpper_toUpper_of_isLower {c : Byte} (h : isLower c = true) :
    isUpper (toUpper c) = true := by
  simp only [toUpper, h, if_true]
  simp only [isUpper, isLower, Bool.and_eq_true, decide_eq_true_eq, UInt8.le_iff_toNat_le,
    UInt8.reduceToNat, UInt8.toNat_sub] at *
  omega

theorem toUpper_toLower_of_isUpper {c : Byte} (h : isUpper c = true) :
    toUpper (toLower c) = c := by
  simp only [toUpper, isLower_toLower_of_isUpper h, if_true]
  simp [toLower, h]

theorem toLower_toUpper_of_isLower {c : Byte} (h : isLower c = true) :
    toLower (toUpper c) = c := by
  simp only [toLower, isUpper_toUpper_of_isLower h, if_true]
  simp [toUpper, h]

theorem isUpper_of_isLower {c : Byte} (h : isLower c = true) : isUpper c = false := by
  cases hu : isUpper c with
  | false => rfl
  | true => rw [isLower_of_isUpper hu] at h; cases h

theorem isUpper_of_isDigit {c : Byte} (h : isDigit c = true) : isUpper c = false := by
  cases hu : isUpper c with
  | false => rfl
  | true => rw [isDigit_of_isUpper hu] at h; cases h

theorem isLower_of_isDigit {c : Byte} (h : isDigit c = true) : isLower c = false := by
  cases hl : isLower c with
  | false => rfl
  | true => rw [isDigit_of_isLower hl] at h; cases h

theorem isAlpha_of_isDigit {c : Byte} (h : isDigit c = true) : isAlpha c = false := by
  rw [isAlpha, isUpper_of_isDigit h, isLower_of_isDigit h, Bool.or_false]

theorem isDigit_of_isAlpha {c : Byte} (h : isAlpha c = true) : isDigit c = false := by
  rcases Bool.or_eq_true_iff.1 h with h | h
  · exact isDigit_of_isUpper h
  · exact isDigit_of_isLower h

theorem isAlnum_of_isUpper {c : Byte} (h : isUpper c = true) : isAlnum c = true := by
  simp [isAlnum, isAlpha, h]

theorem isAlnum_of_isLower {c : Byte} (h : isLower c = true) : isAlnum c = true := by
  simp [isAlnum, isAlpha, h]

theorem isAlnum_of_isDigit {c : Byte} (h : isDigit c = true) : isAlnum c = true := by
  simp [isAlnum, h]

theorem isAlnum_of_isAlpha {c : Byte} (h : isAlpha c = true) : isAlnum c = true := by
  simp [isAlnum, h]

theorem isAlnum_of_isSpace {c : Byte} (h : isSpace c = true) : isAlnum c = false := by
  simp only [isSpace, isAlnum, isAlpha, isUpper, isLower, isDigit, Bool.or_eq_true,
    Bool.and_eq_true, beq_iff_eq, decide_eq_true_eq, Bool.or_eq_false_iff, Bool.and_eq_false_iff,
    decide_eq_false_iff_not, UInt8.le_iff_toNat_le, ← UInt8.toNat_inj, UInt8.reduceToNat] at *
  omega

theorem isAlpha_of_isAlnum {c : Byte} (hc : isAlnum c = true) (hd : isDigit c = false) :
    isAlpha c = true := by
  simpa [isAlnum, hd] using hc

/-- A separator belongs to none of the classes. -/
theorem not_isAlnum_iff {c : Byte} :
    isAlnum c = false ↔ isUpper c = false ∧ isLower c = false ∧ isDigit c = false := by
  rw [isAlnum, isAlpha, Bool.or_eq_false_iff, Bool.or_eq_false_iff, and_assoc]

theorem not_exists_isAlnum {s : Str} :
    (¬ ∃ x ∈ s, isAlnum x = true) ↔ ∀ x ∈ s, isAlnum x = false := by
  simp

/-- An alphanumeric byte belongs to exactly one of the three basic classes. -/
theorem isAlnum_cases {c : Byte} (h : isAlnum c = true) :
    (isUpper c = true ∧ isLower c = false ∧ isDigit c = false) ∨
    (isUpper c = false ∧ isLower c = true ∧ isDigit c = false) ∨
    (isUpper c = false ∧ isLower c = false ∧ isDigit c = true) := by
  cases hu : isUpper c with
  | true => exact .inl ⟨rfl, isLower_of_isUpper hu, isDigit_of_isUpper hu⟩
  | false =>
    cases hl : isLower c with
    | true => exact .inr (.inl ⟨rfl, rfl, isDigit_of_isLower hl⟩)
    | false => exact .inr (.inr ⟨rfl, rfl, by simpa [isAlnum, isAlpha, hu, hl] using h⟩)

/-! ## The classes of converted bytes -/

theorem toLower_eq_self {c : Byte} (h : isUpper c = false) : toLower c = c := by
  simp [toLower, h]

theorem toUpper_eq_self {c : Byte} (h : isLower c = false) : toUpper c = c := by
  simp [toUpper, h]

@[simp] theorem isUpper_toLower (c : Byte) : isUpper (toLower c) = false := by
  cases h : isUpper c with
  | true => exact isUpper_of_isLower (isLower_toLower_of_isUpper h)
  | false => rw [toLower_eq_self h, h]

@[simp] theorem isLower_toUpper (c : Byte) : isLower (toUpper c) = false := by
  cases h : isLower c with
  | true => exact isLower_of_isUpper (isUpper_toUpper_of_isLower h)
  | false => rw [toUpper_eq_self h, h]

@[simp] theorem isLower_toLower (c : Byte) : isLower (toLower c) = isAlpha c := by
  cases h : isUpper c with
  | true => simp [isLower_toLower_of_isUpper h, isAlpha, h]
  | false => simp [toLower_eq_self h, isAlpha, h]

@[simp] theorem isUpper_toUpper (c : Byte) : isUpper (toUpper c) = isAlpha c := by
  cases h : isLower c with
  | true => simp [isUpper_toUpper_of_isLower h, isAlpha, h]
  | false => simp [toUpper_eq_self h, isAlpha, h]

@[simp] theorem isDigit_toLower (c : Byte) : isDigit (toLower c) = isDigit c := by
  cases h : isUpper c with
  | true => rw [isDigit_of_isLower (isLower_toLower_of_isUpper h), isDigit_of_isUpper h]
  | false => rw [toLower_eq_self h]

@[simp] theorem isDigit_toUpper (c : Byte) : isDigit (toUpper c) = isDigit c := by
  cases h : isLower c with
  | true => rw [isDigit_of_isUpper (isUpper_toUpper_of_isLower h), isDigit_of_isLower h]
  | false => rw [toUpper_eq_self h]

@[simp] theorem isAlpha_toLower (c : Byte) : isAlpha (toLower c) = isAlpha c := by
  simp only [isAlpha, isUpper_toLower, isLower_toLower, Bool.false_or]

@[simp] theorem isAlnum_toLower (c : Byte) : isAlnum (toLower c) = isAlnum c := by
  simp only [isAlnum, isAlpha_toLower, isDigit_toLower]

@[simp] theorem toLower_toLower (c : Byte) : toLower (toLower c) = toLower c :=
  toLower_eq_self (isUpper_toLower c)

@[simp] theorem toUpper_toLower (c : Byte) : toUpper (toLower c) = toUpper c := by
  cases h : isUpper c with
  | true => rw [toUpper_toLower_of_isUpper h, toUpper_eq_self (isLower_of_isUpper h)]
  | false => rw [toLower_eq_self h]

@[simp] theorem toLower_toUpper (c : Byte) : toLower (toUpper c) = toLower c := by
  cases h : isLower c with
  | true => rw [toLower_toUpper_of_isLower h, toLower_eq_self (isUpper_of_isLower h)]
  | false => rw [toUpper_eq_self h]

@[simp] theorem lower_nil : lower [] = [] := rfl

@[simp] theorem lower_cons (c : Byte) (s : Str) : lower (c :: s) = toLower c :: lower s := rfl

@[simp] theorem lower_length (s : Str) : (lower s).length = s.length := List.length_map ..

end RefactorCpp

import Mathlib.Data.List.TakeWhile
import RefactorCpp.Peg.Basic
import RefactorCpp.Text

/-!
# The identifier grammar of `namestyle.cpp`

Rule by rule, `>>` is `seq`, `>` is `seq` with `expect`, `|` is `alt`, `*` is `many`, `+` is
`many1`, `%` is `listOf`, unary `-` is `opt` and `!` is `notAt`.  A rule with a string attribute
used as an element of the word list is wrapped in `item`.
-/

set_option autoImplicit false

namespace RefactorCpp

open Peg

/-- `lower_alnum = lower | digit`. -/
def lowerAlnum : Parser Byte Byte := alt (char isLower) (char isDigit)

/-- `id_sep = omit[~alnum]`. -/
def idSep {β : Type} : Parser Byte β := omitted (char fun c => !isAlnum c)

/-- `lower_case = lexeme[+lower_alnum]`. -/
def lowerCase : Parser Byte Byte := lexeme (many1 lowerAlnum)

/-- `camel_case = lexeme[upper >> (+lower_alnum)]`. -/
def camelCase : Parser Byte Byte := lexeme (seq (char isUpper) (many1 lowerAlnum))

/-- `gid_upper_case = lexeme[+((upper >> !lower | digit))]`. -/
def gidUpperCase : Parser Byte Byte :=
  lexeme (many1 (alt (seq (char isUpper) (notAt (char isLower))) (char isDigit)))

/-- `gid = lower_case | camel_case | gid_upper_case`. -/
def gid : Parser Byte Byte := alt (alt lowerCase camelCase) gidUpperCase

/-- `first_id = (+digit >> -gid) | gid`. -/
def firstId : Parser Byte Byte := alt (seq (many1 (char isDigit)) (opt gid)) gid

/-- `nth_id = gid | (+id_sep >> first_id)`. -/
def nthId : Parser Byte Byte := alt gid (seq (many1 idSep) firstId)

/-- `general_id_seperator = no_skip[*id_sep > first_id > *nth_id > *id_sep]`. -/
def generalIdSeperator : Parser Byte Str :=
  noSkip
    (seq (seq (seq (many idSep)
      (expect (item firstId)))
      (expect (many (item nthId))))
      (expect (many idSep)))

/-! ## Identifiers of one style -/

/-- `upper_alnum = upper | digit`. -/
def upperAlnum : Parser Byte Byte := alt (char isUpper) (char isDigit)

/-- `upper_case = lexeme[+upper_alnum]`. -/
def upperCase : Parser Byte Byte := lexeme (many1 upperAlnum)

/-- `lower_case_id = no_skip[lower_case % id_sep]`. -/
def lowerCaseId : Parser Byte Str := noSkip (listOf (item lowerCase) idSep)

/-- `upper_case_id = no_skip[upper_case % id_sep]`. -/
def upperCaseId : Parser Byte Str := noSkip (listOf (item upperCase) idSep)

/-- `lower_camel_case_id = no_skip[lower_case > *camel_case]`. -/
def lowerCamelCaseId : Parser Byte Str :=
  noSkip (seq (item lowerCase) (expect (many (item camelCase))))

/-- `upper_camel_case_id = no_skip[+camel_case]`. -/
def upperCamelCaseId : Parser Byte Str := noSkip (many1 (item camelCase))

/-- `try_parse`: the flag, and the attribute as far as a completed parse filled it.  An
    exception and a failed parse both give `false`. -/
def tryParse {β : Type} (input : Str) (p : Parser Byte β) (skipper : Byte → Bool) :
    Bool × List β :=
  match phraseParse p skipper input with
  | .ok attr rest => (rest.isEmpty, attr)
  | .fail => (false, [])
  | .abort _ => (false, [])

theorem tryParse_of_ok {β : Type} {input t : Str} {p : Parser Byte β} {skipper : Byte → Bool}
    {attr : List β} (h : p ⟨skipper, true⟩ input = .ok attr t) (ht : ∀ x ∈ t, skipper x = true) :
    tryParse input p skipper = (true, attr) := by
  unfold tryParse phraseParse
  rw [h]
  simp [List.dropWhile_eq_nil_iff.2 ht]

theorem tryParse_eq_true {β : Type} {input : Str} {p : Parser Byte β} {skipper : Byte → Bool}
    {attr : List β} (h : tryParse input p skipper = (true, attr)) :
    ∃ t, p ⟨skipper, true⟩ input = .ok attr t ∧ ∀ x ∈ t, skipper x = true := by
  unfold tryParse phraseParse at h
  cases hp : p ⟨skipper, true⟩ input with
  | fail => rw [hp] at h; cases h
  | abort e => rw [hp] at h; cases h
  | ok a t =>
    rw [hp] at h
    obtain ⟨hempty, hattr⟩ := Prod.mk.inj h
    subst hattr
    exact ⟨t, rfl, List.dropWhile_eq_nil_iff.1 (List.isEmpty_iff.1 hempty)⟩

end RefactorCpp

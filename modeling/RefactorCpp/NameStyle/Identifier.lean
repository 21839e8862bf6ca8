import RefactorCpp.NameStyle.Grammar

/-!
# Splitting and joining identifiers

`splitIdentifer` and `joinIdentifier` of `namestyle.cpp`.  The `ok` pointer is an optional
in-out argument: `none` is the null pointer, `some b` a flag that holds `b` before the call.
`splitIdentiferGuessed` is the overload with a guessed style.
-/

set_option autoImplicit false

namespace RefactorCpp

/-- `enum class Capitalization`. -/
inductive Capitalization where
  | original
  | upperCamelCase
  | lowerCamelCase
  | lowerCase
  | upperCase
  deriving DecidableEq, Repr

/-- `struct TypeNameStyle`. -/
structure TypeNameStyle where
  capitalization : Capitalization
  wordDelimiter : Str
  nameSuffix : Str
  namePrefix : Str
  deriving DecidableEq, Repr

/-- `escapeIdentifierChar`. -/
def escapeIdentifierChar (id : Byte) : Byte := if isAlnum id then id else 0x5F

/-- `splitIdentifer(id, ok)`: the two short cases, then the grammar. -/
def splitIdentifer (id : Str) (ok : Option Bool) : List Str × Option Bool :=
  let ok := ok.map fun _ => true
  match id with
  | [] => ([], ok)
  | [c] => ([[escapeIdentifierChar c]], ok)
  | _ =>
    match tryParse id generalIdSeperator isSpace with
    | (true, result) => (result, ok)
    | (false, _) => ([id], ok.map fun _ => false)

/-- `StringRef::slice`: a view of a part; the receiver is not modified. -/
def slice (s : Str) (start stop : Nat) : Str :=
  (s.take (min (max start stop) s.length)).drop (min start s.length)

/-- The difference of two `size_t` values. -/
def sizeSub (m n : Nat) : Nat := (m + (UInt64.size - n % UInt64.size)) % UInt64.size

/-- `splitIdentifer(id, guessed_style, ok)`. -/
def splitIdentiferGuessed (id : Str) (guessedStyle : TypeNameStyle) (ok : Option Bool) :
    List Str × Option Bool :=
  let ok := ok.map fun _ => true
  -- the views without the prefix and without the suffix are not assigned to `id`
  let _ := if guessedStyle.namePrefix.isPrefixOf id then
    slice id guessedStyle.namePrefix.length (UInt64.size - 1) else id
  let _ := if guessedStyle.nameSuffix.isSuffixOf id then
    slice id 0 (sizeSub id.length guessedStyle.namePrefix.length) else id
  splitIdentifer id ok

/-- `toCamelCase`. -/
def toCamelCase (id : Str) : Str :=
  match lower id with
  | [] => []
  | c :: r => toUpper c :: r

/-- `convertIdentifierPart`; `n` is the place of the part in the name. -/
def convertIdentifierPart (id : Str) (n : Nat) : Capitalization → Str
  | .lowerCase => lower id
  | .upperCase => upper id
  | .upperCamelCase => toCamelCase id
  | .lowerCamelCase => if n = 0 then lower id else toCamelCase id
  | .original => id

/-- The transformed range of `joinIdentifier`: the counter `n` goes up once per part. -/
def convertParts (cap : Capitalization) : Nat → List Str → List Str
  | _, [] => []
  | n, a :: parts => convertIdentifierPart a n cap :: convertParts cap (n + 1) parts

/-- `joinIdentifier`. -/
def joinIdentifier (parts : List Str) (style : TypeNameStyle) : Str :=
  style.namePrefix ++ style.wordDelimiter.intercalate (convertParts style.capitalization 0 parts) ++
    style.nameSuffix

-- cases of the repository's own unit tests
example : splitIdentifer (bytes "my_Class_withARGS") (some false) =
    (["my", "Class", "with", "ARGS"].map bytes, some true) := by decide

example : splitIdentifer (bytes "__") (some true) = ([bytes "__"], some false) := by decide

example : joinIdentifier (["my", "cLaSs"].map bytes) ⟨.lowerCamelCase, [], [], []⟩ =
    bytes "myClass" := by decide

end RefactorCpp

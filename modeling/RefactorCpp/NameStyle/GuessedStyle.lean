import RefactorCpp.NameStyle.RoundTrip

/-!
# Splitting with a guessed style

The overload of `splitIdentifer` that is told the style.  It looks for the prefix and the suffix of
the style, and then splits the whole name.

* `splitIdentifer_wrapped_iff` — which texts around a name leave no trace in its words.
* `splitIdentiferGuessed_strips_iff` — **when prefix and suffix do not show up**: if there are
  none, or if they are separators around a name that has a word.
-/

set_option autoImplicit false

namespace RefactorCpp

/-- Without an alphanumeric byte the words are as long as the name, and have none either. -/
theorem splitIdentifer_of_sep {id : Str} (h : ∀ x ∈ id, isAlnum x = false) (ok : Option Bool) :
    (splitIdentifer id ok).1.flatten.length = id.length ∧
    ∀ x ∈ (splitIdentifer id ok).1.flatten, isAlnum x = false := by
  rcases Nat.lt_or_ge id.length 2 with hlen | hlen
  · match id with
    | [] => exact ⟨rfl, by simp [splitIdentifer]⟩
    | [c] =>
      have hc := h c List.mem_cons_self
      have hsplit : (splitIdentifer [c] ok).1 = [[0x5F]] := by
        simp [splitIdentifer, escapeIdentifierChar, hc]
      rw [hsplit]
      exact ⟨rfl, by decide⟩
    | c :: d :: r =>
      simp only [List.length_cons] at hlen
      omega
  · rw [splitIdentifer_eq_of_sep h hlen]
    simpa using h

/-- **Texts around a name leave no trace** exactly if they are empty, or if they are separators
    and the name has a word. -/
theorem splitIdentifer_wrapped_iff (p body s : Str) (ok : Option Bool) :
    splitIdentifer (p ++ body ++ s) ok = splitIdentifer body ok ↔
      (p = [] ∧ s = []) ∨
      ((∃ x ∈ body, isAlnum x = true) ∧ (∀ x ∈ p, isAlnum x = false) ∧
        ∀ x ∈ s, isAlnum x = false) := by
  constructor
  · intro heq
    by_cases hbody : ∃ x ∈ body, isAlnum x = true
    · -- the alphanumeric bytes of prefix and suffix would be found in the words
      right
      have hall : ∃ x ∈ p ++ body ++ s, isAlnum x = true := by
        obtain ⟨x, hx, hax⟩ := hbody
        exact ⟨x, by simp [hx], hax⟩
      rw [splitIdentifer_eq hall, splitIdentifer_eq hbody] at heq
      have hflat := congrArg (fun r : List Str × Option Bool => r.1.flatten.length) heq
      simp only [words_flatten, List.filter_append, List.length_append] at hflat
      have hp : p.filter isAlnum = [] := List.length_eq_zero_iff.1 (by omega)
      have hs : s.filter isAlnum = [] := List.length_eq_zero_iff.1 (by omega)
      rw [List.filter_eq_nil_iff] at hp hs
      exact ⟨hbody, fun x hx => by simpa using hp x hx, fun x hx => by simpa using hs x hx⟩
    · left
      obtain ⟨hlen, hno⟩ := splitIdentifer_of_sep (not_exists_isAlnum.1 hbody) ok
      rw [← heq] at hlen hno
      have hall : ¬ ∃ x ∈ p ++ body ++ s, isAlnum x = true := by
        rintro ⟨x, hx, hax⟩
        have hmem : x ∈ (p ++ body ++ s).filter isAlnum := List.mem_filter.2 ⟨hx, hax⟩
        rw [← words_flatten] at hmem
        rw [splitIdentifer_eq ⟨x, hx, hax⟩] at hno
        rw [hno x hmem] at hax
        cases hax
      rw [(splitIdentifer_of_sep (not_exists_isAlnum.1 hall) ok).1] at hlen
      simp only [List.length_append] at hlen
      exact ⟨List.length_eq_zero_iff.1 (by omega), List.length_eq_zero_iff.1 (by omega)⟩
  · rintro (⟨rfl, rfl⟩ | ⟨hbody, hp, hs⟩)
    · rw [List.nil_append, List.append_nil]
    · have hall : ∃ x ∈ p ++ body ++ s, isAlnum x = true := by
        obtain ⟨x, hx, hax⟩ := hbody
        exact ⟨x, by simp [hx], hax⟩
      rw [splitIdentifer_eq hall, splitIdentifer_eq hbody, words_append_of_sep _ hs,
        words_sep_append hp]

/-- The overload splits the name as it is. -/
theorem splitIdentiferGuessed_eq (id : Str) (guessedStyle : TypeNameStyle) (ok : Option Bool) :
    splitIdentiferGuessed id guessedStyle ok = splitIdentifer id ok := by
  cases ok with
  | none => rfl
  | some b =>
    show splitIdentifer id (some true) = splitIdentifer id (some b)
    unfold splitIdentifer
    rfl

/-- The style without its prefix and suffix. -/
def TypeNameStyle.bare (style : TypeNameStyle) : TypeNameStyle :=
  { style with namePrefix := [], nameSuffix := [] }

/-- A joined name is the bare joined name with prefix and suffix around it. -/
theorem joinIdentifier_eq (ws : List Str) (style : TypeNameStyle) :
    joinIdentifier ws style =
      style.namePrefix ++ joinIdentifier ws style.bare ++ style.nameSuffix := by
  simp [joinIdentifier, TypeNameStyle.bare]

/-- There is no prefix and no suffix, or they are separators and the body has a word. -/
def LeavesNoTrace (style : TypeNameStyle) (body : Str) : Prop :=
  (style.namePrefix = [] ∧ style.nameSuffix = []) ∨
  ((∃ x ∈ body, isAlnum x = true) ∧ (∀ x ∈ style.namePrefix, isAlnum x = false) ∧
    ∀ x ∈ style.nameSuffix, isAlnum x = false)

/-- **When the prefix and the suffix of the style do not show up**: for every body between them,
    and in particular for every joined name. -/
theorem splitIdentiferGuessed_strips_iff (style : TypeNameStyle) (ok : Option Bool) :
    (∀ body : Str,
      splitIdentiferGuessed (style.namePrefix ++ body ++ style.nameSuffix) style ok =
        splitIdentifer body ok ↔ LeavesNoTrace style body) ∧
    ∀ ws : List Str,
      splitIdentiferGuessed (joinIdentifier ws style) style ok =
        splitIdentifer (joinIdentifier ws style.bare) ok ↔
        LeavesNoTrace style (joinIdentifier ws style.bare) := by
  constructor
  · intro body
    rw [splitIdentiferGuessed_eq]
    exact splitIdentifer_wrapped_iff _ body _ ok
  · intro ws
    rw [splitIdentiferGuessed_eq, joinIdentifier_eq]
    exact splitIdentifer_wrapped_iff _ _ _ ok

/-- The prefix `get` of a getter is still there. -/
theorem splitIdentiferGuessed_get_Name :
    ¬ ∀ (style : TypeNameStyle) (body : Str) (ok : Option Bool),
      splitIdentiferGuessed (style.namePrefix ++ body ++ style.nameSuffix) style ok =
        splitIdentifer body ok := by
  intro hall
  have h := hall ⟨.lowerCamelCase, [], [], bytes "get"⟩ (bytes "Name") none
  revert h
  decide

end RefactorCpp

import RefactorCpp.NameStyle.Refinement

/-!
# Joining and splitting again

* `words_joinIdentifier` — with a separator between the words, the joined parts are cut one by
  one.
* `splitIdentifer_joinIdentifier` — **splitting undoes joining** when the words keep their case
  or are lower-cased.
-/

set_option autoImplicit false

namespace RefactorCpp

open Runs

/-! ## Conversion of a word -/

theorem isLowerAlnum_toLower {c : Byte} (h : isAlnum c = true) :
    isLowerAlnum (toLower c) = true := by
  unfold isLowerAlnum
  rw [isLower_toLower, isDigit_toLower]
  exact h

theorem isUpperAlnum_toUpper {c : Byte} (h : isAlnum c = true) :
    isUpperAlnum (toUpper c) = true := by
  unfold isUpperAlnum
  rw [isUpper_toUpper, isDigit_toUpper]
  exact h

theorem digits_lower {ds : Str} (h : ∀ x ∈ ds, isDigit x = true) :
    ∀ x ∈ lower ds, isDigit x = true := by
  intro x hx
  obtain ⟨y, hy, rfl⟩ := List.mem_map.1 hx
  rw [isDigit_toLower]
  exact h y hy

/-- A lower-cased hump is a hump. -/
theorem Body.lower {b : Str} (h : Body b) : Body (lower b) := by
  have halnum := h.alnum
  obtain ⟨c, r, rfl, hc⟩ := h.head
  have hc' : isAlpha (toLower c) = true := by rw [isAlpha_toLower, hc]
  apply Body.humped hc'
  intro x hx
  obtain ⟨y, hy, rfl⟩ := List.mem_map.1 hx
  exact isLowerAlnum_toLower (halnum y (List.mem_cons_of_mem _ hy))

theorem IsWord.lower {w : Str} (h : IsWord w) : IsWord (lower w) := by
  cases h with
  | digits hne hds => exact .digits (by simpa [RefactorCpp.lower] using hne) (digits_lower hds)
  | @body ds b hds hb =>
    rw [RefactorCpp.lower, List.map_append]
    exact .body (digits_lower hds) hb.lower

/-- Capitalizations that do not look at the position of the word. -/
theorem convertParts_eq_map {cap : Capitalization} {f : Str → Str}
    (h : ∀ w n, convertIdentifierPart w n cap = f w) (n : Nat) (ws : List Str) :
    convertParts cap n ws = ws.map f := by
  induction ws generalizing n with
  | nil => rfl
  | cons w ws ih => rw [convertParts, h, ih, List.map_cons]

/-- Separators around the joined words do not matter. -/
theorem words_joinIdentifier {style : TypeNameStyle} {ws : List Str}
    (hpre : ∀ x ∈ style.namePrefix, isAlnum x = false)
    (hsuf : ∀ x ∈ style.nameSuffix, isAlnum x = false) (hne : style.wordDelimiter ≠ [])
    (hd : ∀ x ∈ style.wordDelimiter, isAlnum x = false) :
    words (joinIdentifier ws style) =
      (convertParts style.capitalization 0 ws).flatMap words := by
  unfold joinIdentifier
  rw [words_append_of_sep _ hsuf, words_sep_append hpre, words_intercalate hne hd]

/-- **Splitting undoes joining** on separated styles that keep or lower the case. -/
theorem splitIdentifer_joinIdentifier (id : Str) (style : TypeNameStyle) (f : Str → Str)
    (h : ∃ x ∈ id, isAlnum x = true)
    (hcap : (style.capitalization = .original ∧ f = fun w => w) ∨
      (style.capitalization = .lowerCase ∧ f = lower))
    (hne : style.wordDelimiter ≠ []) (hd : ∀ x ∈ style.wordDelimiter, isAlnum x = false)
    (hpre : ∀ x ∈ style.namePrefix, isAlnum x = false)
    (hsuf : ∀ x ∈ style.nameSuffix, isAlnum x = false) :
    (splitIdentifer (joinIdentifier (splitIdentifer id none).1 style) none).1 =
      (splitIdentifer id none).1.map f := by
  have hconv : convertParts style.capitalization 0 (words id) = (words id).map f := by
    refine convertParts_eq_map (fun w n => ?_) 0 (words id)
    rcases hcap with ⟨hc, rfl⟩ | ⟨hc, rfl⟩
    · rw [hc]; rfl
    · rw [hc]; rfl
  have hwords : ∀ w ∈ (words id).map f, IsWord w := by
    intro w hw
    obtain ⟨v, hv, rfl⟩ := List.mem_map.1 hw
    rcases hcap with ⟨_, rfl⟩ | ⟨_, rfl⟩
    · exact words_isWord id v hv
    · exact (words_isWord id v hv).lower
  have hjoin : words (joinIdentifier (words id) style) = (words id).map f := by
    rw [words_joinIdentifier hpre hsuf hne hd, hconv, flatMap_words hwords]
  have hne' : (words id).map f ≠ [] := by simpa using words_ne_nil h
  rw [splitIdentifer_eq h]
  rw [splitIdentifer_of_words hjoin hne']

theorem splitIdentifer_joinIdentifier_lower_case :
    (splitIdentifer (joinIdentifier (splitIdentifer (bytes "XMLHttp2A_b") none).1
      ⟨.lowerCase, bytes "_", bytes "__", bytes "-"⟩) none).1 =
      (splitIdentifer (bytes "XMLHttp2A_b") none).1.map lower :=
  splitIdentifer_joinIdentifier _ _ lower ⟨0x58, by decide⟩ (.inr ⟨rfl, rfl⟩) (by decide)
    (by decide) (by decide) (by decide)

end RefactorCpp

import RefactorCpp.CppIdentifier
import RefactorCpp.NameStyle.Refinement

/-!
# Restyled names

A name is restyled by splitting it and joining its words in another style.

* `lower_convertIdentifierPart` — a conversion changes the letter case and nothing else.
* `startsIn_isDigit_restyle` — a restyled name starts with a digit exactly if the first word of
  the old name does.
* `restyle_letters` — **restyling changes letter case and separators only**.
* `restyle_cppIdentifier` — **a restyled C++ identifier is made of identifier characters**, and
  it is an identifier again unless underscores stood before a digit.
-/

set_option autoImplicit false

namespace RefactorCpp

open Runs

/-- A name split into its words and joined again in another style. -/
def restyle (style : TypeNameStyle) (id : Str) : Str :=
  joinIdentifier (splitIdentifer id none).1 style

/-- One or more underscores directly before a digit. -/
def UnderscoresThenDigit (id : Str) : Prop :=
  ∃ us d r, id = us ++ d :: r ∧ us ≠ [] ∧ (∀ x ∈ us, x = 0x5F) ∧ isDigit d = true

/-! ## What a conversion keeps -/

theorem lower_toCamelCase (w : Str) : lower (toCamelCase w) = lower w := by
  cases w with
  | nil => rfl
  | cons c r => simp [toCamelCase, lower]

theorem lower_convertIdentifierPart (w : Str) (n : Nat) (cap : Capitalization) :
    lower (convertIdentifierPart w n cap) = lower w := by
  cases cap with
  | original => rfl
  | upperCamelCase => exact lower_toCamelCase w
  | lowerCamelCase =>
    show lower (if n = 0 then lower w else toCamelCase w) = lower w
    split
    · simp [lower]
    · exact lower_toCamelCase w
  | lowerCase => simp [convertIdentifierPart, lower]
  | upperCase => simp [convertIdentifierPart, lower, upper]

theorem isAlnum_of_lower_eq {s t : Str} (h : lower s = lower t)
    (ht : ∀ x ∈ t, isAlnum x = true) : ∀ x ∈ s, isAlnum x = true := by
  intro x hx
  have hmem : toLower x ∈ lower t := by
    rw [← h]
    exact List.mem_map_of_mem hx
  obtain ⟨y, hy, hxy⟩ := List.mem_map.1 hmem
  rw [← isAlnum_toLower, ← hxy, isAlnum_toLower]
  exact ht y hy

theorem startsIn_isDigit_of_lower_eq {s t : Str} (h : lower s = lower t) :
    startsIn isDigit s = startsIn isDigit t := by
  have hlower : ∀ u : Str, startsIn isDigit (lower u) = startsIn isDigit u := by
    intro u
    cases u with
    | nil => rfl
    | cons c r => exact isDigit_toLower c
  rw [← hlower s, h, hlower]

theorem ne_nil_of_lower_eq {s t : Str} (h : lower s = lower t) (ht : t ≠ []) : s ≠ [] := by
  rintro rfl
  have hlen := congrArg List.length h
  rw [lower_length, lower_length] at hlen
  exact ht (List.length_eq_zero_iff.1 hlen.symm)

/-- A text without letters is not changed by any conversion. -/
theorem convertIdentifierPart_of_no_letter {w : Str} (h : ∀ x ∈ w, isAlpha x = false) (n : Nat)
    (cap : Capitalization) : convertIdentifierPart w n cap = w := by
  have hcase : ∀ x ∈ w, toLower x = x ∧ toUpper x = x := by
    intro x hx
    obtain ⟨hu, hl⟩ := Bool.or_eq_false_iff.1 (h x hx)
    exact ⟨toLower_eq_self hu, toUpper_eq_self hl⟩
  have hlower : lower w = w :=
    (List.map_congr_left fun x hx => (hcase x hx).1).trans (List.map_id' w)
  have hupper : upper w = w :=
    (List.map_congr_left fun x hx => (hcase x hx).2).trans (List.map_id' w)
  have hcamel : toCamelCase w = w := by
    rw [toCamelCase, hlower]
    cases w with
    | nil => rfl
    | cons c r => simp only [(hcase c List.mem_cons_self).2]
  cases cap <;> simp [convertIdentifierPart, hlower, hupper, hcamel]

theorem mem_convertParts {cap : Capitalization} {n : Nat} {ws : List Str} {v : Str}
    (h : v ∈ convertParts cap n ws) : ∃ w ∈ ws, lower v = lower w := by
  induction ws generalizing n with
  | nil => cases h
  | cons w ws ih =>
    rcases List.mem_cons.1 h with rfl | h
    · exact ⟨w, List.mem_cons_self, lower_convertIdentifierPart w n cap⟩
    · obtain ⟨u, hu, huv⟩ := ih h
      exact ⟨u, List.mem_cons_of_mem _ hu, huv⟩

theorem map_lower_convertParts (cap : Capitalization) (n : Nat) (ws : List Str) :
    (convertParts cap n ws).map lower = ws.map lower := by
  induction ws generalizing n with
  | nil => rfl
  | cons w ws ih =>
    rw [convertParts, List.map_cons, List.map_cons, ih, lower_convertIdentifierPart]

theorem lower_flatten (ws : List Str) : lower ws.flatten = (ws.map lower).flatten := by
  unfold lower
  rw [List.map_flatten]

theorem lower_filter_isAlnum (s : Str) : lower (s.filter isAlnum) = (lower s).filter isAlnum := by
  have hcomp : isAlnum ∘ toLower = isAlnum := funext isAlnum_toLower
  unfold lower
  rw [List.filter_map, hcomp]

/-! ## The restyled name -/

/-- **Letters and digits stay**, in order and up to their case. -/
theorem restyle_letters (id : Str) (style : TypeNameStyle) (h : ∃ x ∈ id, isAlnum x = true)
    (hd : ∀ x ∈ style.wordDelimiter, isAlnum x = false)
    (hpre : ∀ x ∈ style.namePrefix, isAlnum x = false)
    (hsuf : ∀ x ∈ style.nameSuffix, isAlnum x = false) :
    lower ((restyle style id).filter isAlnum) = lower (id.filter isAlnum) := by
  have hpre' : style.namePrefix.filter isAlnum = [] :=
    List.filter_eq_nil_iff.2 fun x hx => by simp [hpre x hx]
  have hsuf' : style.nameSuffix.filter isAlnum = [] :=
    List.filter_eq_nil_iff.2 fun x hx => by simp [hsuf x hx]
  unfold restyle joinIdentifier
  rw [splitIdentifer_eq h, List.filter_append, List.filter_append, hpre', hsuf', List.nil_append,
    List.append_nil, filter_intercalate hd]
  calc
    lower ((convertParts style.capitalization 0 (words id)).flatten.filter isAlnum)
      = (lower (convertParts style.capitalization 0 (words id)).flatten).filter isAlnum :=
        lower_filter_isAlnum _
    _ = (lower (words id).flatten).filter isAlnum := by
        rw [lower_flatten, map_lower_convertParts, ← lower_flatten]
    _ = lower ((id.filter isAlnum).filter isAlnum) := by
        rw [words_flatten, ← lower_filter_isAlnum]
    _ = lower (id.filter isAlnum) := by rw [List.filter_filter]; simp

theorem restyle_letters_my_HTTP2x :
    lower ((restyle ⟨.lowerCamelCase, bytes "-", bytes "_", bytes "__"⟩
      (bytes "my_HTTP2x")).filter isAlnum) = lower ((bytes "my_HTTP2x").filter isAlnum) :=
  restyle_letters _ _ ⟨0x6D, by decide⟩ (by decide) (by decide) (by decide)

theorem restyle_eq {id : Str} {style : TypeNameStyle} (h : ∃ x ∈ id, isAlnum x = true)
    (hpre : style.namePrefix = []) (hsuf : style.nameSuffix = []) :
    restyle style id =
      style.wordDelimiter.intercalate (convertParts style.capitalization 0 (words id)) := by
  rw [restyle, splitIdentifer_eq h, joinIdentifier, hpre, hsuf, List.nil_append, List.append_nil]

theorem startsIn_isDigit_restyle {id : Str} {style : TypeNameStyle}
    (h : ∃ x ∈ id, isAlnum x = true) (hpre : style.namePrefix = [])
    (hsuf : style.nameSuffix = []) :
    restyle style id ≠ [] ∧
    startsIn isDigit (restyle style id) = startsIn isDigit (id.filter isAlnum) := by
  obtain ⟨w, ws, hw⟩ := List.exists_cons_of_ne_nil (words_ne_nil h)
  obtain ⟨c, r, rfl⟩ := List.exists_cons_of_ne_nil (words_isWord id w (by simp [hw])).ne_nil
  have hconv := lower_convertIdentifierPart (c :: r) 0 style.capitalization
  have hne := ne_nil_of_lower_eq hconv (by simp)
  rw [restyle_eq h hpre hsuf, hw, convertParts, ← words_flatten, hw]
  constructor
  · obtain ⟨x, t, hx⟩ := List.exists_cons_of_ne_nil hne
    rw [hx, List.intercalate_cons_cons_left]
    simp
  · rw [startsIn_intercalate _ hne, startsIn_isDigit_of_lower_eq hconv]
    rfl

theorem isIdentifierChar_restyle {id : Str} {style : TypeNameStyle}
    (h : ∃ x ∈ id, isAlnum x = true) (hd : ∀ x ∈ style.wordDelimiter, isIdentifierChar x = true)
    (hpre : style.namePrefix = []) (hsuf : style.nameSuffix = []) :
    ∀ x ∈ restyle style id, isIdentifierChar x = true := by
  intro x hx
  rw [restyle_eq h hpre hsuf] at hx
  rcases mem_of_mem_intercalate hx with hx | ⟨v, hv, hx⟩
  · exact hd x hx
  · obtain ⟨w, hw, hvw⟩ := mem_convertParts hv
    have hax := isAlnum_of_lower_eq hvw (words_isWord id w hw).alnum x hx
    simp [isIdentifierChar, hax]

/-- A name without letters and digits is left alone. -/
theorem restyle_underscores {id : Str} {style : TypeNameStyle} (hne : id ≠ [])
    (h : ∀ x ∈ id, x = 0x5F) (hpre : style.namePrefix = []) (hsuf : style.nameSuffix = []) :
    restyle style id = id := by
  have hsep : ∀ x ∈ id, isAlnum x = false := by
    intro x hx
    rw [h x hx]
    decide
  have hletter : ∀ x ∈ id, isAlpha x = false := fun x hx => (Bool.or_eq_false_iff.1 (hsep x hx)).1
  have hsplit : (splitIdentifer id none).1 = [id] := by
    rcases Nat.lt_or_ge id.length 2 with hlen | hlen
    · obtain ⟨c, r, rfl⟩ := List.exists_cons_of_ne_nil hne
      obtain rfl : r = [] := List.length_eq_zero_iff.1 (by
        simp only [List.length_cons] at hlen
        omega)
      rw [h c List.mem_cons_self]
      decide
    · rw [splitIdentifer_eq_of_sep hsep hlen]
  rw [restyle, hsplit, joinIdentifier, hpre, hsuf, convertParts, convertParts,
    convertIdentifierPart_of_no_letter hletter, List.intercalate_singleton, List.nil_append,
    List.append_nil]

/-! ## Identifiers -/

/-- The first letter or digit of an identifier is a digit only after underscores. -/
theorem startsIn_isDigit_filter_iff {id : Str} (hid : CppIdentifier id) :
    startsIn isDigit (id.filter isAlnum) = true ↔ UnderscoresThenDigit id := by
  obtain ⟨hne, hchar, hdig⟩ := cppIdentifier_iff.1 hid
  constructor
  · intro h
    have hsplit := List.takeWhile_append_dropWhile (p := isSep) (l := id)
    have hus : ∀ x ∈ id.takeWhile isSep, isAlnum x = false := not_isAlnum_of_mem_takeWhile
    have hfilter : id.filter isAlnum = (id.dropWhile isSep).filter isAlnum := by
      have hnil : (id.takeWhile isSep).filter isAlnum = [] :=
        List.filter_eq_nil_iff.2 fun x hx => by simp [hus x hx]
      rw [← List.nil_append (List.filter _ (id.dropWhile _)), ← hnil, ← List.filter_append, hsplit]
    cases hdrop : id.dropWhile isSep with
    | nil => rw [hfilter, hdrop] at h; cases h
    | cons d r =>
      rw [hdrop] at hfilter hsplit
      have hd : isAlnum d = true := isAlnum_of_dropWhile hdrop
      rw [hfilter, List.filter_cons_of_pos hd, startsIn_cons] at h
      refine ⟨id.takeWhile isSep, d, r, hsplit.symm, ?_, ?_, h⟩
      · intro hnil
        rw [← hsplit, hnil, List.nil_append, startsIn_cons, h] at hdig
        cases hdig
      · intro x hx
        have hxid : x ∈ id := by rw [← hsplit]; exact List.mem_append_left _ hx
        simpa [isIdentifierChar, hus x hx] using hchar x hxid
  · rintro ⟨us, d, r, rfl, -, hus, hd⟩
    have hnil : us.filter isAlnum = [] := by
      apply List.filter_eq_nil_iff.2
      intro x hx
      rw [hus x hx]
      decide
    rw [List.filter_append, hnil, List.nil_append, List.filter_cons_of_pos (isAlnum_of_isDigit hd),
      startsIn_cons, hd]

/-- **Restyling keeps identifiers valid**, except that it drops the underscores that protect a
    leading digit. -/
theorem restyle_cppIdentifier (id : Str) (style : TypeNameStyle) (hid : CppIdentifier id)
    (hd : style.wordDelimiter = [] ∨ style.wordDelimiter = [0x5F])
    (hpre : style.namePrefix = []) (hsuf : style.nameSuffix = []) :
    restyle style id ≠ [] ∧ (∀ x ∈ restyle style id, isIdentifierChar x = true) ∧
    (CppIdentifier (restyle style id) ↔ ¬ UnderscoresThenDigit id) := by
  obtain ⟨hne, hchar, hdig⟩ := cppIdentifier_iff.1 hid
  by_cases h : ∃ x ∈ id, isAlnum x = true
  · obtain ⟨hne', hstart⟩ := startsIn_isDigit_restyle h hpre hsuf
    have hdelim : ∀ x ∈ style.wordDelimiter, isIdentifierChar x = true := by
      rcases hd with hd | hd
      · simp [hd]
      · rw [hd]; decide
    have hchar' := isIdentifierChar_restyle h hdelim hpre hsuf
    refine ⟨hne', hchar', ?_⟩
    rw [cppIdentifier_iff, ← startsIn_isDigit_filter_iff hid, ← hstart, Bool.not_eq_true]
    exact ⟨fun hs => hs.2.2, fun hs => ⟨hne', hchar', hs⟩⟩
  · have hus : ∀ x ∈ id, x = 0x5F := by
      intro x hx
      have hax := not_exists_isAlnum.1 h x hx
      simpa [isIdentifierChar, hax] using hchar x hx
    rw [restyle_underscores hne hus hpre hsuf]
    refine ⟨hne, hchar, fun _ => ?_, fun _ => hid⟩
    rintro ⟨us, d, r, rfl, -, -, hdd⟩
    exact h ⟨d, by simp, isAlnum_of_isDigit hdd⟩

theorem restyle_cppIdentifier_myClass2 :
    restyle ⟨.lowerCase, [0x5F], [], []⟩ (bytes "_myClass2") ≠ [] ∧
    (∀ x ∈ restyle ⟨.lowerCase, [0x5F], [], []⟩ (bytes "_myClass2"), isIdentifierChar x = true) ∧
    (CppIdentifier (restyle ⟨.lowerCase, [0x5F], [], []⟩ (bytes "_myClass2")) ↔
      ¬ UnderscoresThenDigit (bytes "_myClass2")) :=
  restyle_cppIdentifier _ _ ⟨0x5F, bytes "myClass2", rfl, by decide, by decide⟩ (.inr rfl) rfl rfl

/-- The underscore before a leading digit is a separator, and separators are dropped. -/
theorem restyle_not_cppIdentifier_1 :
    CppIdentifier (bytes "_1") ∧
    ¬ CppIdentifier (restyle ⟨.original, [], [], []⟩ (bytes "_1")) := by
  refine ⟨⟨0x5F, bytes "1", rfl, by decide, by decide⟩, ?_⟩
  rw [show restyle ⟨.original, [], [], []⟩ (bytes "_1") = bytes "1" by decide]
  rintro ⟨c, r, hcr, hc, -⟩
  obtain ⟨rfl, rfl⟩ := List.cons.inj hcr
  revert hc
  decide

end RefactorCpp

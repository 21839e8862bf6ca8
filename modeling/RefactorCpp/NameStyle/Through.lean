import RefactorCpp.NameStyle.StyleGrammars

/-!
# Restyling through another style

A name is restyled from the words the splitter finds, so a style in between matters only through
the words that are found in its result.

* `restyle_restyle_iff` — a style in between is harmless exactly when the words are found again,
  up to their letter case.
* `restyle_through_separated` — **a style with separators loses nothing**, unless it writes
  capitals only.
* `restyle_through_upper_iff`, `restyle_through_camelCase_iff` — **what is lost in capitals and in
  camel case**, exactly.
* `restyle_lowerCase_range` — the results of a lower-case style with separators, which it leaves
  alone, for names with and without an alphanumeric character.
* `splitIdentifer_joinIdentifier_camelCase_iff` — **when camel-case names split back**.
-/

set_option autoImplicit false

namespace RefactorCpp

open Runs

/-! ## Letter case does not matter -/

theorem lower_lower (w : Str) : lower (lower w) = lower w := by
  simp [lower]

theorem convertIdentifierPart_lower {cap : Capitalization} (hcap : cap ≠ .original) (w : Str)
    (n : Nat) : convertIdentifierPart (lower w) n cap = convertIdentifierPart w n cap := by
  have hcamel : toCamelCase (lower w) = toCamelCase w := by
    unfold toCamelCase
    rw [lower_lower]
  cases cap with
  | original => exact absurd rfl hcap
  | upperCamelCase => exact hcamel
  | lowerCamelCase =>
    show (if n = 0 then lower (lower w) else toCamelCase (lower w)) =
      if n = 0 then lower w else toCamelCase w
    rw [lower_lower, hcamel]
  | lowerCase => exact lower_lower w
  | upperCase => simp [convertIdentifierPart, upper, lower]

theorem convertParts_map_lower {cap : Capitalization} (hcap : cap ≠ .original) (n : Nat)
    (ws : List Str) : convertParts cap n (ws.map lower) = convertParts cap n ws := by
  induction ws generalizing n with
  | nil => rfl
  | cons w ws ih =>
    rw [List.map_cons, convertParts, convertParts, ih, convertIdentifierPart_lower hcap]

/-- The case of the words is forgotten, unless a style keeps it. -/
theorem joinIdentifier_congr {style : TypeNameStyle} (hcap : style.capitalization ≠ .original)
    {ws us : List Str} (h : ws.map lower = us.map lower) :
    joinIdentifier ws style = joinIdentifier us style := by
  unfold joinIdentifier
  rw [← convertParts_map_lower hcap 0 ws, h, convertParts_map_lower hcap]

theorem lower_append (s t : Str) : lower (s ++ t) = lower s ++ lower t := List.map_append ..

theorem lower_intercalate (d : Str) (ws : List Str) :
    lower (d.intercalate ws) = (lower d).intercalate (ws.map lower) := by
  induction ws with
  | nil => rfl
  | cons w ws ih =>
    cases ws with
    | nil => simp [List.intercalate_singleton]
    | cons v ws =>
      simp only [List.map_cons, List.intercalate_cons_cons, lower_append] at ih ⊢
      rw [ih]

/-- **A joined name with separators determines its words** up to their case. -/
theorem map_lower_of_joinIdentifier {style : TypeNameStyle} {ws us : List Str}
    (hws : ∀ w ∈ ws, IsWord w) (hus : ∀ u ∈ us, IsWord u) (hne : style.wordDelimiter ≠ [])
    (hd : ∀ x ∈ style.wordDelimiter, isAlnum x = false)
    (h : joinIdentifier ws style = joinIdentifier us style) : ws.map lower = us.map lower := by
  have hne' : lower style.wordDelimiter ≠ [] := by simpa [lower] using hne
  have hd' : ∀ x ∈ lower style.wordDelimiter, isAlnum x = false := by
    intro x hx
    obtain ⟨y, hy, rfl⟩ := List.mem_map.1 hx
    rw [isAlnum_toLower]
    exact hd y hy
  -- the lower-cased text between the affixes is cut into the lower-cased words
  have hread : ∀ vs : List Str, (∀ v ∈ vs, IsWord v) →
      words (lower (style.wordDelimiter.intercalate
        (convertParts style.capitalization 0 vs))) = vs.map lower := by
    intro vs hvs
    rw [lower_intercalate, map_lower_convertParts]
    refine words_joined hne' hd' fun v hv => ?_
    obtain ⟨w, hw, rfl⟩ := List.mem_map.1 hv
    exact (hvs w hw).lower
  have hmid := List.append_cancel_left (List.append_cancel_right h)
  rw [← hread ws hws, ← hread us hus, hmid]

/-! ## A style in between -/

/-- **A style in between is harmless** exactly when its result has the words of the name, up to
    letter case. -/
theorem restyle_restyle_iff {s₁ s₂ : TypeNameStyle} {id : Str} (h : ∃ x ∈ id, isAlnum x = true)
    (h₁ : ∃ x ∈ restyle s₁ id, isAlnum x = true) (hcap : s₂.capitalization ≠ .original)
    (hne : s₂.wordDelimiter ≠ []) (hd : ∀ x ∈ s₂.wordDelimiter, isAlnum x = false) :
    restyle s₂ (restyle s₁ id) = restyle s₂ id ↔
      (words (restyle s₁ id)).map lower = (words id).map lower := by
  rw [restyle, splitIdentifer_eq h₁, restyle.eq_def s₂ id, splitIdentifer_eq h]
  exact ⟨map_lower_of_joinIdentifier (words_isWord _) (words_isWord _) hne hd,
    joinIdentifier_congr hcap⟩

theorem exists_isAlnum_joinIdentifier (style : TypeNameStyle) {ws : List Str} (hne : ws ≠ [])
    (hwne : ∀ w ∈ ws, w ≠ []) (halnum : ∀ w ∈ ws, ∀ x ∈ w, isAlnum x = true) :
    ∃ x ∈ joinIdentifier ws style, isAlnum x = true := by
  obtain ⟨w, ws, rfl⟩ := List.exists_cons_of_ne_nil hne
  have hlow := lower_convertIdentifierPart w 0 style.capitalization
  obtain ⟨c, r, hc⟩ := List.exists_cons_of_ne_nil
    (ne_nil_of_lower_eq hlow (hwne w List.mem_cons_self))
  have hcalnum : isAlnum c = true :=
    isAlnum_of_lower_eq hlow (halnum w List.mem_cons_self) c (hc ▸ List.mem_cons_self)
  refine ⟨c, ?_, hcalnum⟩
  rw [joinIdentifier, convertParts, hc, List.intercalate_cons_cons_left]
  simp

theorem exists_isAlnum_restyle (style : TypeNameStyle) {id : Str}
    (h : ∃ x ∈ id, isAlnum x = true) : ∃ x ∈ restyle style id, isAlnum x = true := by
  rw [restyle, splitIdentifer_eq h]
  exact exists_isAlnum_joinIdentifier style (words_ne_nil h)
    (fun w hw => (words_isWord id w hw).ne_nil) fun w hw => (words_isWord id w hw).alnum

/-! ## Styles with separators -/

theorem Body.toCamelCase {b : Str} (h : Body b) : Body (toCamelCase b) := by
  have halnum := h.alnum
  obtain ⟨c, r, rfl, hc⟩ := h.head
  rw [toCamelCase_cons]
  refine .humped (by rw [isAlpha, isUpper_toUpper, hc, Bool.true_or]) ?_
  exact isLowerAlnum_of_mem_lower fun x hx => halnum x (List.mem_cons_of_mem _ hx)

theorem IsWord.toCamelCase {w : Str} (h : IsWord w) : IsWord (toCamelCase w) := by
  cases h with
  | digits hne hds =>
    rw [show RefactorCpp.toCamelCase w = w from convertIdentifierPart_of_no_letter
      (fun x hx => isAlpha_of_isDigit (hds x hx)) 0 .upperCamelCase]
    exact .digits hne hds
  | @body ds b hds hb =>
    cases ds with
    | nil => exact @IsWord.body [] _ (by simp) hb.toCamelCase
    | cons d ds =>
      rw [List.cons_append, toCamelCase_digit (hds d List.mem_cons_self), ← List.cons_append]
      exact (IsWord.body hds hb).lower

/-- A conversion that does not write capitals only leaves one word. -/
theorem IsWord.convertIdentifierPart {w : Str} (h : IsWord w) {cap : Capitalization}
    (hcap : cap ≠ .upperCase) (n : Nat) : IsWord (convertIdentifierPart w n cap) := by
  cases cap with
  | original => exact h
  | upperCamelCase => exact h.toCamelCase
  | lowerCamelCase =>
    show IsWord (if n = 0 then RefactorCpp.lower w else RefactorCpp.toCamelCase w)
    split
    · exact h.lower
    · exact h.toCamelCase
  | lowerCase => exact h.lower
  | upperCase => exact absurd rfl hcap

theorem isWord_convertParts {cap : Capitalization} (hcap : cap ≠ .upperCase) (n : Nat)
    {ws : List Str} (hws : ∀ w ∈ ws, IsWord w) : ∀ v ∈ convertParts cap n ws, IsWord v := by
  induction ws generalizing n with
  | nil => intro v hv; cases hv
  | cons w ws ih =>
    intro v hv
    rcases List.mem_cons.1 hv with rfl | hv
    · exact (hws w List.mem_cons_self).convertIdentifierPart hcap n
    · exact ih (n + 1) (fun u hu => hws u (List.mem_cons_of_mem _ hu)) v hv

/-- The words of a name are found again after a style with separators. -/
theorem words_restyle_separated {style : TypeNameStyle} {id : Str}
    (h : ∃ x ∈ id, isAlnum x = true) (hcap : style.capitalization ≠ .upperCase)
    (hne : style.wordDelimiter ≠ []) (hd : ∀ x ∈ style.wordDelimiter, isAlnum x = false)
    (hpre : ∀ x ∈ style.namePrefix, isAlnum x = false)
    (hsuf : ∀ x ∈ style.nameSuffix, isAlnum x = false) :
    words (restyle style id) = convertParts style.capitalization 0 (words id) := by
  rw [restyle, splitIdentifer_eq h, words_joinIdentifier hpre hsuf hne hd,
    flatMap_words (isWord_convertParts hcap 0 (words_isWord id))]

/-- **Nothing is lost in a style with separators**: restyling its result gives what restyling the
    name itself gives, in every second style that does not keep the case of the words. -/
theorem restyle_through_separated (id : Str) (s₁ s₂ : TypeNameStyle)
    (h : ∃ x ∈ id, isAlnum x = true) (hcap₁ : s₁.capitalization ≠ .upperCase)
    (hne : s₁.wordDelimiter ≠ []) (hd : ∀ x ∈ s₁.wordDelimiter, isAlnum x = false)
    (hpre : ∀ x ∈ s₁.namePrefix, isAlnum x = false)
    (hsuf : ∀ x ∈ s₁.nameSuffix, isAlnum x = false) (hcap₂ : s₂.capitalization ≠ .original) :
    restyle s₂ (restyle s₁ id) = restyle s₂ id := by
  have hwords := words_restyle_separated h hcap₁ hne hd hpre hsuf
  have h₁ := exists_isAlnum_restyle s₁ h
  rw [restyle, splitIdentifer_eq h₁, restyle.eq_def s₂ id, splitIdentifer_eq h]
  apply joinIdentifier_congr hcap₂
  rw [hwords, map_lower_convertParts]

theorem restyle_through_separated_my_HTTP2xA :
    restyle ⟨.upperCamelCase, [], bytes "_t", bytes "T"⟩
      (restyle ⟨.lowerCamelCase, bytes "-", [], bytes "_"⟩ (bytes "my_HTTP2xA")) =
      restyle ⟨.upperCamelCase, [], bytes "_t", bytes "T"⟩ (bytes "my_HTTP2xA") :=
  restyle_through_separated _ _ _ ⟨0x6D, by decide⟩ (by decide) (by decide) (by decide)
    (by decide) (by decide) (by decide)

/-! ### Names in small letters -/

/-- Words of small letters and digits, joined by a delimiter. -/
def LowerName (d s : Str) : Prop :=
  ∃ ws : List Str, ws ≠ [] ∧ (∀ w ∈ ws, WordOf isLowerAlnum w) ∧ s = d.intercalate ws

theorem lower_eq_self {w : Str} (h : ∀ x ∈ w, isLowerAlnum x = true) : lower w = w := by
  unfold lower
  conv_rhs => rw [← List.map_id w]
  exact List.map_congr_left fun x hx => toLower_eq_self (isUpper_of_isLowerAlnum (h x hx))

theorem convertParts_lowerCase (n : Nat) (ws : List Str) :
    convertParts .lowerCase n ws = ws.map lower := convertParts_eq_map (fun _ _ => rfl) n ws

/-- Separators only, and if it is one character, then the underscore. -/
def SeparatorName (s : Str) : Prop :=
  (∀ x ∈ s, isAlnum x = false) ∧ (s.length = 1 → s = [0x5F])

/-- A name without an alphanumeric character is kept, or it is one character and escaped. -/
theorem restyle_lowerCase_of_sep {style : TypeNameStyle} {id : Str}
    (h : ∀ x ∈ id, isAlnum x = false) (hcap : style.capitalization = .lowerCase)
    (hpre : style.namePrefix = []) (hsuf : style.nameSuffix = []) :
    restyle style id = if id.length = 1 then [0x5F] else id := by
  have hjoin : ∀ ws, joinIdentifier ws style = style.wordDelimiter.intercalate (ws.map lower) := by
    intro ws
    rw [joinIdentifier, hpre, hsuf, hcap, convertParts_lowerCase, List.nil_append, List.append_nil]
  rw [restyle, hjoin]
  rcases id with - | ⟨c, - | ⟨d, r⟩⟩
  · rfl
  · have hc : escapeIdentifierChar c = 0x5F := by
      simp [escapeIdentifierChar, h c List.mem_cons_self]
    rw [splitIdentifer, hc]
    rfl
  · have hlower : lower (c :: d :: r) = c :: d :: r := by
      unfold lower
      conv_rhs => rw [← List.map_id (c :: d :: r)]
      refine List.map_congr_left fun x hx => toLower_eq_self (eq_false_of_ne_true fun hup => ?_)
      exact Bool.false_ne_true ((h x hx).symm.trans (isAlnum_of_isUpper hup))
    rw [splitIdentifer_eq_of_sep h (by simp), List.map_singleton, hlower,
      List.intercalate_singleton, if_neg (by simp)]

/-- **Restyling in small letters** is a projection.  From names with an alphanumeric character it
    makes exactly the names of small words between delimiters, and from the other names exactly
    the names of separators; it leaves all of these as they are. -/
theorem restyle_lowerCase_range (style : TypeNameStyle) (s : Str)
    (hcap : style.capitalization = .lowerCase) (hne : style.wordDelimiter ≠ [])
    (hd : ∀ x ∈ style.wordDelimiter, isAlnum x = false) (hpre : style.namePrefix = [])
    (hsuf : style.nameSuffix = []) :
    ((∃ id, (∃ x ∈ id, isAlnum x = true) ∧ restyle style id = s) ↔
      LowerName style.wordDelimiter s) ∧
    ((∃ id, (∀ x ∈ id, isAlnum x = false) ∧ restyle style id = s) ↔ SeparatorName s) ∧
    (LowerName style.wordDelimiter s ∨ SeparatorName s → restyle style s = s) := by
  have hlowers : LowerName style.wordDelimiter s →
      (∃ x ∈ s, isAlnum x = true) ∧ restyle style s = s := by
    rintro ⟨ws, hws, hlow, rfl⟩
    have hword : ∀ w ∈ ws, IsWord w := fun w hw => isWord_of_lowerAlnum (hlow w hw)
    have hwords := words_joined hne hd hword
    have halnum := exists_isAlnum_of_words (hwords ▸ hws)
    have hself : ws.map lower = ws :=
      (List.map_congr_left fun w hw => lower_eq_self (hlow w hw).2).trans (List.map_id' ws)
    refine ⟨halnum, ?_⟩
    rw [restyle_eq halnum hpre hsuf, hcap, hwords, convertParts_lowerCase, hself]
  have hseparators : SeparatorName s → restyle style s = s := by
    rintro ⟨hsep, hone⟩
    rw [restyle_lowerCase_of_sep hsep hcap hpre hsuf]
    split
    · rename_i hlen
      exact (hone hlen).symm
    · rfl
  refine ⟨⟨?_, fun h => ⟨s, hlowers h⟩⟩, ⟨?_, fun h => ⟨s, h.1, hseparators h⟩⟩, ?_⟩
  · rintro ⟨id, h, rfl⟩
    refine ⟨(words id).map lower, by simpa using words_ne_nil h, ?_, ?_⟩
    · intro v hv
      obtain ⟨w, hw, rfl⟩ := List.mem_map.1 hv
      have hword := words_isWord id w hw
      exact ⟨by simpa [lower] using hword.ne_nil, isLowerAlnum_of_mem_lower hword.alnum⟩
    · rw [restyle_eq h hpre hsuf, hcap, convertParts_lowerCase]
  · rintro ⟨id, h, rfl⟩
    rw [restyle_lowerCase_of_sep h hcap hpre hsuf]
    split
    · exact ⟨by decide, fun _ => rfl⟩
    · rename_i hlen
      exact ⟨h, fun hone => absurd hone hlen⟩
  · rintro (h | h)
    · exact (hlowers h).2
    · exact hseparators h

theorem restyle_lowerCase_range_my_2d :
    ((∃ id, (∃ x ∈ id, isAlnum x = true) ∧
      restyle ⟨.lowerCase, bytes "-_", [], []⟩ id = bytes "my-_2d") ↔
      LowerName (bytes "-_") (bytes "my-_2d")) ∧
    ((∃ id, (∀ x ∈ id, isAlnum x = false) ∧
      restyle ⟨.lowerCase, bytes "-_", [], []⟩ id = bytes "my-_2d") ↔
      SeparatorName (bytes "my-_2d")) ∧
    (LowerName (bytes "-_") (bytes "my-_2d") ∨ SeparatorName (bytes "my-_2d") →
      restyle ⟨.lowerCase, bytes "-_", [], []⟩ (bytes "my-_2d") = bytes "my-_2d") :=
  restyle_lowerCase_range ⟨.lowerCase, bytes "-_", [], []⟩ _ rfl (by decide) (by decide) rfl rfl

/-! ## Capitals only -/

theorem words_restyle_upper {style : TypeNameStyle} {id : Str} (h : ∃ x ∈ id, isAlnum x = true)
    (hcap : style.capitalization = .upperCase) (hne : style.wordDelimiter ≠ [])
    (hd : ∀ x ∈ style.wordDelimiter, isAlnum x = false)
    (hpre : ∀ x ∈ style.namePrefix, isAlnum x = false)
    (hsuf : ∀ x ∈ style.nameSuffix, isAlnum x = false) :
    words (restyle style id) = (words id).flatMap fun w => runWords (upper w) := by
  have hconv : convertParts style.capitalization 0 (words id) = (words id).map upper :=
    convertParts_eq_map (fun w n => by rw [hcap]; rfl) 0 (words id)
  rw [restyle, splitIdentifer_eq h, words_joinIdentifier hpre hsuf hne hd, hconv, List.flatMap_map]
  exact List.flatMap_congr fun w hw => words_of_run (words_isWord id w hw).alnum_upper

/-- A word in capitals is found again, up to its case, if it is not cut. -/
theorem map_lower_runWords_upper_iff {w : Str} (h : IsWord w) :
    (runWords (upper w)).map lower = [lower w] ↔ ¬ CutWord w := by
  have hlower : lower (upper w) = lower w := by simp [lower, upper]
  rw [← runWords_upper_iff h]
  constructor
  · intro heq
    obtain ⟨v, hv, -⟩ := List.map_eq_singleton_iff.1 heq
    have hflat := runWords_flatten (upper w)
    rw [hv, List.flatten_singleton] at hflat
    rw [hv, hflat]
  · intro heq
    rw [heq, List.map_singleton, hlower]

/-- **What is lost in capitals**: exactly the names with a word that is cut again. -/
theorem restyle_through_upper_iff (id : Str) (s₁ s₂ : TypeNameStyle)
    (h : ∃ x ∈ id, isAlnum x = true) (hcap₁ : s₁.capitalization = .upperCase)
    (hne₁ : s₁.wordDelimiter ≠ []) (hd₁ : ∀ x ∈ s₁.wordDelimiter, isAlnum x = false)
    (hpre : ∀ x ∈ s₁.namePrefix, isAlnum x = false)
    (hsuf : ∀ x ∈ s₁.nameSuffix, isAlnum x = false) (hcap₂ : s₂.capitalization ≠ .original)
    (hne₂ : s₂.wordDelimiter ≠ []) (hd₂ : ∀ x ∈ s₂.wordDelimiter, isAlnum x = false) :
    restyle s₂ (restyle s₁ id) = restyle s₂ id ↔ ¬ CutAgain id := by
  have hword := words_isWord id
  have hblocks : ∀ w ∈ words id, (runWords (upper w)).map lower ≠ [] := by
    intro w hw hnil
    have hflat := runWords_flatten (upper w)
    rw [List.map_eq_nil_iff.1 hnil] at hflat
    exact (hword w hw).ne_nil (by simpa [upper] using hflat.symm)
  rw [restyle_restyle_iff h (exists_isAlnum_restyle s₁ h) hcap₂ hne₂ hd₂,
    words_restyle_upper h hcap₁ hne₁ hd₁ hpre hsuf, List.map_flatMap]
  calc
    (words id).flatMap (fun w => (runWords (upper w)).map lower) = (words id).map lower
      ↔ ∀ w ∈ words id, (runWords (upper w)).map lower = [lower w] := flatMap_eq_map_iff hblocks
    _ ↔ ∀ w ∈ words id, ¬ CutWord w :=
        forall₂_congr fun w hw => map_lower_runWords_upper_iff (hword w hw)
    _ ↔ ¬ ∃ w ∈ words id, CutWord w := by simp
    _ ↔ ¬ CutAgain id := not_congr (cutWord_words_iff id)

theorem restyle_through_upper_iff_x_a1b :
    restyle ⟨.lowerCase, bytes "_", [], []⟩ (restyle ⟨.upperCase, bytes "_", bytes "_", bytes "__"⟩
      (bytes "x_a1b")) = restyle ⟨.lowerCase, bytes "_", [], []⟩ (bytes "x_a1b") ↔
      ¬ CutAgain (bytes "x_a1b") :=
  restyle_through_upper_iff _ _ _ ⟨0x78, by decide⟩ rfl (by decide) (by decide) (by decide)
    (by decide) (by decide) (by decide) (by decide)

/-! ## Camel case -/

/-- Camel-case words that begin with letters begin with capitals. -/
theorem startsIn_isLowerAlnum_letters {ws : List Str} (hws : ∀ w ∈ ws, startsIn isAlpha w = true) :
    startsIn isLowerAlnum (ws.map toCamelCase).flatten = false := by
  cases ws with
  | nil => rfl
  | cons w ws =>
    obtain ⟨c, r, rfl, hc⟩ := exists_cons_of_startsIn (hws w List.mem_cons_self)
    rw [List.map_cons, List.flatten_cons, toCamelCase_cons, List.cons_append, startsIn_cons]
    exact isLowerAlnum_of_isUpper (by rw [isUpper_toUpper, hc])

/-- A one-letter word is a hump of its own, unless the next word begins with a lone letter. -/
theorem hump_oneLetter_iff {c : Byte} {ws : List Str} (hc : isAlpha c = true)
    (hws : ∀ w ∈ ws, startsIn isAlpha w = true) :
    hump (toUpper c) (ws.map toCamelCase).flatten = ([], (ws.map toCamelCase).flatten) ↔
      startsIn loneStart ws = false := by
  have hne : ∀ w ∈ ws, w ≠ [] := by
    rintro w hw rfl
    exact absurd (hws [] hw) (by simp)
  have hu : isUpper (toUpper c) = true := by rw [isUpper_toUpper, hc]
  have hr := startsIn_isLowerAlnum_letters hws
  have hhump : hump (toUpper c) (ws.map toCamelCase).flatten =
      spanAcronym (ws.map toCamelCase).flatten := by
    unfold hump
    rw [if_pos (by simp [hu, hr])]
  have hopen : (spanAcronym (ws.map toCamelCase).flatten).1.any isUpper =
      startsIn loneStart ws := by
    rw [← opensAcronym_span hu hr, opensAcronym_camelCase c hne, hc, Bool.true_and]
  have happ := spanAcronym_append (ws.map toCamelCase).flatten
  rw [hhump, ← hopen]
  cases hs : (spanAcronym (ws.map toCamelCase).flatten).1 with
  | nil =>
    rw [hs, List.nil_append] at happ
    exact iff_of_true (Prod.ext hs happ) rfl
  | cons d a =>
    refine iff_of_false (fun heq => ?_) (by simp [spanAcronym_head hr hs])
    rw [heq] at hs
    cases hs

/-- **When the humps of camel-case words are these words**; induction on the words. -/
theorem humps_camelCase_iff {ws : List Str} (hws : ∀ w ∈ ws, startsIn isAlpha w = true)
    (halnum : ∀ w ∈ ws, ∀ x ∈ w, isAlnum x = true) :
    humps (ws.map toCamelCase).flatten = ws.map toCamelCase ↔ lettersMeet ws = false := by
  induction ws with
  | nil => exact iff_of_true humps_nil rfl
  | cons w ws ih =>
    have hws' : ∀ v ∈ ws, startsIn isAlpha v = true := fun v hv => hws v (List.mem_cons_of_mem _ hv)
    have ih := ih hws' fun v hv => halnum v (List.mem_cons_of_mem _ hv)
    obtain ⟨c, r, rfl, hc⟩ := exists_cons_of_startsIn (hws w List.mem_cons_self)
    have hr := halnum (c :: r) List.mem_cons_self
    rw [List.map_cons, List.flatten_cons, toCamelCase_cons, List.cons_append, humps_cons,
      lettersMeet]
    cases r with
    | cons d r =>
      rw [hump_camelCase (fun x hx => hr x (List.mem_cons_of_mem _ hx))
        (startsIn_isLowerAlnum_letters hws')]
      simpa [oneLetter] using ih
    | nil =>
      have hone := hump_oneLetter_iff hc hws'
      rw [lower_nil, List.nil_append, oneLetter, hc, Bool.true_and]
      cases hlone : startsIn loneStart ws with
      | false =>
        rw [hone.2 hlone]
        simpa using ih
      | true =>
        -- the hump goes on with the next capital
        refine iff_of_false (fun heq => ?_) (by simp)
        have hfst : (hump (toUpper c) (ws.map toCamelCase).flatten).1 = [] :=
          (List.cons.inj (List.cons.inj heq).1).2
        have happ := hump_append (toUpper c) (ws.map toCamelCase).flatten
        rw [hfst, List.nil_append] at happ
        have := hone.1 (Prod.ext hfst happ)
        rw [hlone] at this
        cases this

/-- Words behind the first one of a run begin with letters. -/
theorem startsIn_isAlpha_runWords {u : Str} (hu : ∀ x ∈ u, isAlnum x = true) :
    ∀ w ∈ (runWords u).tail, startsIn isAlpha w = true := by
  have hbody := humps_body (u.dropWhile isDigit)
    (fun x hx => hu x ((List.dropWhile_sublist _).subset hx)) (startsIn_dropWhile _ _)
  intro w hw
  have hmem : w ∈ humps (u.dropWhile isDigit) := by
    unfold runWords at hw
    cases hh : humps (u.dropWhile isDigit) with
    | nil =>
      rw [hh, prependDigits] at hw
      split at hw <;> cases hw
    | cons b bs =>
      rw [hh] at hw
      exact List.mem_cons_of_mem _ hw
  obtain ⟨c, r, rfl, hc⟩ := (hbody w hmem).head
  exact hc

/-- Blocks of the same text that agree up to letter case have the same lengths. -/
theorem eq_of_map_lower_eq {vs us : List Str} (hflat : vs.flatten = us.flatten)
    (h : vs.map lower = us.map lower) : vs = us := by
  refine List.eq_iff_flatten_eq.2 ⟨hflat, ?_⟩
  have hlen := congrArg (List.map List.length) h
  have hcomp : List.length ∘ lower = List.length := funext lower_length
  rwa [List.map_map, List.map_map, hcomp] at hlen

/-- The words can be told apart by capitals: no one-letter word meets a lone letter, every word
    but the first begins with a letter, and the first one is not a number, or it is the only one. -/
def ToldApart (cap : Capitalization) (ws : List Str) : Prop :=
  lettersMeet (if cap = .upperCamelCase then ws else ws.tail) = false ∧
  (∀ w ∈ ws.tail, startsIn isAlpha w = true) ∧
  (ws.tail ≠ [] → startsIn isNumber ws = false)

/-- A first word in small letters is found again with the others, if it is not a number. -/
theorem gluedDigits_humps_iff (w : Str) {us : List Str} (hus : ∀ u ∈ us, startsIn isAlpha u = true)
    (halnum : ∀ u ∈ us, ∀ x ∈ u, isAlnum x = true) :
    gluedDigits (lower w :: humps (us.map toCamelCase).flatten) = lower w :: us.map toCamelCase ↔
      lettersMeet us = false ∧ (us ≠ [] → isNumber w = false) := by
  have hlower : isNumber (lower w) = isNumber w := all_isDigit_lower w
  have hhumps := humps_camelCase_iff hus halnum
  cases hnum : isNumber w with
  | false =>
    rw [gluedDigits_of_not_isNumber (hlower.trans hnum), ← hhumps]
    simp
  | true =>
    cases us with
    | nil =>
      refine iff_of_true ?_ ⟨rfl, fun h => absurd rfl h⟩
      rw [List.map_nil, List.flatten_nil, humps_nil, gluedDigits]
      exact fun _ _ _ h => by cases h
    | cons u us =>
      refine iff_of_false (fun heq => ?_) (by simp)
      obtain ⟨c, r, rfl, -⟩ := exists_cons_of_startsIn (hus u List.mem_cons_self)
      rw [List.map_cons, List.flatten_cons, toCamelCase_cons, List.cons_append, humps_cons,
        gluedDigits, if_pos (hlower.trans hnum)] at heq
      simpa using (List.cons.inj heq).1

theorem startsIn_isAlpha_toCamelCase (w : Str) :
    startsIn isAlpha (toCamelCase w) = startsIn isAlpha w := by
  cases w with
  | nil => rfl
  | cons c r =>
    rw [toCamelCase_cons, startsIn_cons, startsIn_cons, isAlpha, isUpper_toUpper, isLower_toUpper,
      Bool.or_false]

/-- **Which words are found again in camel case.** -/
theorem words_convertParts_iff {cap : Capitalization}
    (hcap : cap = .upperCamelCase ∨ cap = .lowerCamelCase) {ws : List Str} (hne : ws ≠ [])
    (hwne : ∀ w ∈ ws, w ≠ []) (halnum : ∀ w ∈ ws, ∀ x ∈ w, isAlnum x = true) :
    words (convertParts cap 0 ws).flatten = convertParts cap 0 ws ↔ ToldApart cap ws := by
  have hflat : ∀ x ∈ (convertParts cap 0 ws).flatten, isAlnum x = true := by
    intro x hx
    obtain ⟨v, hv, hxv⟩ := List.mem_flatten.1 hx
    obtain ⟨w, hw, hvw⟩ := mem_convertParts hv
    exact isAlnum_of_lower_eq hvw (halnum w hw) x hxv
  obtain ⟨w, us, rfl⟩ := List.exists_cons_of_ne_nil hne
  have hw := halnum w List.mem_cons_self
  have husalnum : ∀ u ∈ us, ∀ x ∈ u, isAlnum x = true := fun u hu =>
    halnum u (List.mem_cons_of_mem _ hu)
  rw [ToldApart, List.tail_cons]
  rw [convertParts, convertParts_camelCase hcap] at hflat ⊢
  by_cases hus : ∀ u ∈ us, startsIn isAlpha u = true
  · by_cases hfirst : cap = .upperCamelCase ∧ startsIn isAlpha w = true
    · -- the first word is a camel-case word like the others
      obtain ⟨rfl, hwa⟩ := hfirst
      have hall : ∀ v ∈ w :: us, startsIn isAlpha v = true := List.forall_mem_cons.2 ⟨hwa, hus⟩
      have hd : startsIn isDigit ((w :: us).map toCamelCase).flatten = false :=
        startsIn_of_imp (fun _ => isLowerAlnum_of_isDigit) (startsIn_isLowerAlnum_letters hall)
      have hnum : isNumber w = false := by
        obtain ⟨c, r, rfl, hc⟩ := exists_cons_of_startsIn hwa
        simp [isNumber, isDigit_of_isAlpha hc]
      have hhumps := humps_camelCase_iff hall halnum
      show words ((w :: us).map toCamelCase).flatten = (w :: us).map toCamelCase ↔ _
      rw [words_of_run (u := ((w :: us).map toCamelCase).flatten) hflat, runWords_of_startsIn hd,
        hhumps, if_pos rfl]
      exact ⟨fun h => ⟨h, hus, fun _ => hnum⟩, fun h => h.1⟩
    · -- the first word is in small letters, or begins with a digit
      have hconv : convertIdentifierPart w 0 cap = lower w := by
        rcases hcap with rfl | rfl
        · obtain ⟨c, r, rfl⟩ := List.exists_cons_of_ne_nil (hwne w List.mem_cons_self)
          have hc : isAlpha c ≠ true := fun h => hfirst ⟨rfl, h⟩
          refine toCamelCase_digit ?_ r
          simpa [isAlnum, hc] using hw c List.mem_cons_self
        · rfl
      have hmeet : lettersMeet (if cap = .upperCamelCase then w :: us else us) =
          lettersMeet us := by
        split
        · rename_i hup
          have hone : oneLetter w = false := by
            rcases w with - | ⟨c, - | ⟨d, r⟩⟩
            · rfl
            · exact eq_false_of_ne_true fun h => hfirst ⟨hup, h⟩
            · rfl
          rw [lettersMeet, hone, Bool.false_and, Bool.false_or]
        · rfl
      have hne' : lower w ≠ [] := by simpa [lower] using hwne w List.mem_cons_self
      have hrest : ∀ x ∈ (us.map toCamelCase).flatten, isAlnum x = true := fun x hx =>
        hflat x (by simp only [List.flatten_cons, List.mem_append]; exact .inr hx)
      rw [hconv, hmeet, List.flatten_cons, words_lowerAlnum_append hne'
        (isLowerAlnum_of_mem_lower hw) (startsIn_isLowerAlnum_letters hus) hrest,
        gluedDigits_humps_iff w hus husalnum]
      exact ⟨fun h => ⟨h.1, hus, h.2⟩, fun h => ⟨h.1, h.2.2⟩⟩
  · refine iff_of_false (fun heq => hus fun u hu => ?_) fun h => hus h.2.1
    rw [words_of_run hflat] at heq
    rw [← startsIn_isAlpha_toCamelCase]
    refine startsIn_isAlpha_runWords hflat (toCamelCase u) ?_
    rw [heq]
    exact List.mem_map_of_mem hu

/-- **Camel-case names split back into their words exactly when these are told apart.** -/
theorem splitIdentifer_joinIdentifier_camelCase_iff (ws : List Str) (style : TypeNameStyle)
    (ok : Option Bool) (hne : ws ≠ []) (hwne : ∀ w ∈ ws, w ≠ [])
    (halnum : ∀ w ∈ ws, ∀ x ∈ w, isAlnum x = true)
    (hcap : style.capitalization = .upperCamelCase ∨ style.capitalization = .lowerCamelCase)
    (hd : style.wordDelimiter = []) (hpre : style.namePrefix = []) (hsuf : style.nameSuffix = []) :
    splitIdentifer (joinIdentifier ws style) ok =
        (convertParts style.capitalization 0 ws, ok.map fun _ => true) ↔
      ToldApart style.capitalization ws := by
  have hjoin := exists_isAlnum_joinIdentifier style hne hwne halnum
  rw [← words_convertParts_iff hcap hne hwne halnum, splitIdentifer_eq hjoin,
    joinIdentifier_camelCase ws hd hpre hsuf]
  simp

theorem splitIdentifer_joinIdentifier_camelCase_iff_2a_x_Ab :
    splitIdentifer (joinIdentifier (["2a", "x", "Ab"].map bytes) ⟨.upperCamelCase, [], [], []⟩)
        (some false) =
        (convertParts .upperCamelCase 0 (["2a", "x", "Ab"].map bytes), some true) ↔
      ToldApart .upperCamelCase (["2a", "x", "Ab"].map bytes) :=
  splitIdentifer_joinIdentifier_camelCase_iff (["2a", "x", "Ab"].map bytes)
    ⟨.upperCamelCase, [], [], []⟩ (some false) (by decide) (by decide) (by decide) (.inl rfl) rfl
    rfl rfl

/-- **What is lost in camel case**: exactly the names whose words are not told apart. -/
theorem restyle_through_camelCase_iff (id : Str) (s₁ s₂ : TypeNameStyle)
    (h : ∃ x ∈ id, isAlnum x = true)
    (hcap₁ : s₁.capitalization = .upperCamelCase ∨ s₁.capitalization = .lowerCamelCase)
    (hd₁ : s₁.wordDelimiter = []) (hpre : s₁.namePrefix = []) (hsuf : s₁.nameSuffix = [])
    (hcap₂ : s₂.capitalization ≠ .original) (hne₂ : s₂.wordDelimiter ≠ [])
    (hd₂ : ∀ x ∈ s₂.wordDelimiter, isAlnum x = false) :
    restyle s₂ (restyle s₁ id) = restyle s₂ id ↔
      ToldApart s₁.capitalization (splitIdentifer id none).1 := by
  have hword := words_isWord id
  have hjoin := restyle_camelCase_eq h hd₁ hpre hsuf
  have hlow := map_lower_convertParts s₁.capitalization 0 (words id)
  have hflat : (words (restyle s₁ id)).flatten =
      (convertParts s₁.capitalization 0 (words id)).flatten := by
    rw [words_flatten, hjoin, List.filter_eq_self]
    intro x hx
    obtain ⟨v, hv, hxv⟩ := List.mem_flatten.1 hx
    obtain ⟨w, hw, hvw⟩ := mem_convertParts hv
    exact isAlnum_of_lower_eq hvw (hword w hw).alnum x hxv
  rw [restyle_restyle_iff h (exists_isAlnum_restyle s₁ h) hcap₂ hne₂ hd₂, splitIdentifer_eq h,
    ← words_convertParts_iff hcap₁ (words_ne_nil h) (fun w hw => (hword w hw).ne_nil)
      fun w hw => (hword w hw).alnum, ← hjoin, ← hlow]
  exact ⟨eq_of_map_lower_eq hflat, fun heq => by rw [heq]⟩

theorem restyle_through_camelCase_iff_my_x_2D :
    restyle ⟨.lowerCase, bytes "_", [], []⟩ (restyle ⟨.lowerCamelCase, [], [], []⟩
      (bytes "my_x_2D")) = restyle ⟨.lowerCase, bytes "_", [], []⟩ (bytes "my_x_2D") ↔
      ToldApart .lowerCamelCase (splitIdentifer (bytes "my_x_2D") none).1 :=
  restyle_through_camelCase_iff _ ⟨.lowerCamelCase, [], [], []⟩ _ ⟨0x6D, by decide⟩ (.inr rfl) rfl
    rfl rfl (by decide) (by decide) (by decide)

end RefactorCpp

import RefactorCpp.NameStyle.Restyle

/-!
# Names in camel case

`toCamelCase` marks a word by one capital, and the splitter finds the words of a joined name by
its capitals.  The two disagree on one-letter words, whose capitals it reads as an acronym, and
on digits at the front, which it takes into the first word.

* `hasAcronym_hump` — an acronym lies in one hump or in what follows it.
* `restyle_camelCase_eq_self_iff` — **the names that are left alone**.
* `hasAcronym_camelCase`, `startsIn_isUpper_camelCase` — which words join to an acronym, or to a
  capital after digits.
* `restyle_camelCase_idempotent_iff` — **when restyling a second time changes nothing**.
-/

set_option autoImplicit false

namespace RefactorCpp

open Runs

/-! ## Acronyms -/

/-- `c` and the capital after it are read as one word: no lower-case letter follows. -/
def opensAcronym (c : Byte) (r : Str) : Bool :=
  isUpper c && startsIn isUpper r && !startsIn isLower r.tail

/-- An acronym begins somewhere in the string. -/
def hasAcronym : Str → Bool
  | [] => false
  | c :: r => opensAcronym c r || hasAcronym r

theorem opensAcronym_of_lower {c : Byte} (hc : isUpper c = false) (r : Str) :
    opensAcronym c r = false := by
  simp [opensAcronym, hc]

theorem hasAcronym_append {u : Str} (hu : ∀ x ∈ u, isUpper x = false) (v : Str) :
    hasAcronym (u ++ v) = hasAcronym v := by
  induction u with
  | nil => rfl
  | cons c r ih =>
    rw [List.cons_append, hasAcronym, opensAcronym_of_lower (hu c List.mem_cons_self),
      Bool.false_or, ih fun x hx => hu x (List.mem_cons_of_mem _ hx)]

theorem hasAcronym_of_lower {u : Str} (hu : ∀ x ∈ u, isUpper x = false) : hasAcronym u = false := by
  have h := hasAcronym_append hu []
  rw [List.append_nil] at h
  exact h

/-- An acronym that begins at `c` is the start of the hump of `c`. -/
theorem opensAcronym_span {c : Byte} {r : Str} (hc : isUpper c = true)
    (hr : startsIn isLowerAlnum r = false) :
    opensAcronym c r = (spanAcronym r).1.any isUpper := by
  cases hspan : (spanAcronym r).1 with
  | nil =>
    have happ := spanAcronym_append r
    rw [hspan, List.nil_append] at happ
    cases r with
    | nil => simp [opensAcronym]
    | cons d t =>
      have hstop := (spanAcronym_stop happ).2
      cases hd : isUpper d with
      | false => simp [opensAcronym, hd]
      | true => simp [opensAcronym, hstop hd]
  | cons d h =>
    have hd := spanAcronym_head hr hspan
    cases r with
    | nil => cases hspan
    | cons y t =>
      unfold spanAcronym at hspan
      split at hspan
      · rename_i hcond
        obtain ⟨rfl, -⟩ := List.cons.inj hspan
        have hnl : startsIn isLower t = false := by
          simpa [hd, isDigit_of_isUpper hd] using hcond
        simp [opensAcronym, hc, hd, hnl]
      · cases hspan

/-- **One hump.** -/
theorem hasAcronym_hump (c : Byte) (r : Str) :
    hasAcronym (c :: r) = ((hump c r).1.any isUpper || hasAcronym (hump c r).2) := by
  rcases hump_cases c r with ⟨hlow, hupper, -⟩ | ⟨hc, hr, hspan⟩
  · have hnone : ∀ x ∈ (hump c r).1, isUpper x = false := fun x hx =>
      isUpper_of_isLowerAlnum (hlow x hx)
    have hopen : opensAcronym c r = false := by
      cases hc : isUpper c with
      | false => exact opensAcronym_of_lower hc r
      | true =>
        have hr := hupper hc
        obtain ⟨d, t, rfl, hd⟩ := exists_cons_of_startsIn hr
        simp [opensAcronym, isUpper_of_isLowerAlnum hd]
    have hany : (hump c r).1.any isUpper = false := by
      rw [List.any_eq_false]
      intro x hx
      simp [hnone x hx]
    rw [hasAcronym, hopen, hany, Bool.false_or, Bool.false_or]
    conv_lhs => rw [← hump_append c r]
    exact hasAcronym_append hnone _
  · rw [hasAcronym, opensAcronym_span hc hr, hspan]
    cases hany : (spanAcronym r).1.any isUpper with
    | true => rfl
    | false =>
      have hnone : ∀ x ∈ (spanAcronym r).1, isUpper x = false := by
        intro x hx
        have := List.any_eq_false.1 hany x hx
        simpa using this
      conv_lhs => rw [← spanAcronym_append r]
      rw [hasAcronym_append hnone]

/-- After a hump with no capital inside the next one starts with a capital. -/
theorem hump_next {c : Byte} {r : Str} (h : (hump c r).1.any isUpper = false) :
    startsIn isLower (hump c r).2 = false := by
  have hnext : startsIn isLowerAlnum (hump c r).2 = false := by
    rcases hump_cases c r with ⟨-, -, hstop⟩ | ⟨-, hr, hspan⟩
    · exact hstop
    · rw [hspan] at h ⊢
      have happ := spanAcronym_append r
      cases hs : (spanAcronym r).1 with
      | nil =>
        rw [hs, List.nil_append] at happ
        rwa [happ]
      | cons d t =>
        rw [hs, List.any_cons, spanAcronym_head hr hs, Bool.true_or] at h
        cases h
  exact startsIn_of_imp (fun _ => isLowerAlnum_of_isLower) hnext

/-! ## Words that a conversion leaves alone -/

theorem lower_eq_self_iff (w : Str) : lower w = w ↔ w.any isUpper = false := by
  constructor
  · intro h
    rw [List.any_eq_false]
    intro x hx
    rw [← h] at hx
    obtain ⟨y, -, rfl⟩ := List.mem_map.1 hx
    simp
  · intro h
    refine (List.map_congr_left fun x hx => toLower_eq_self ?_).trans (List.map_id' w)
    have := List.any_eq_false.1 h x hx
    simpa using this

theorem toUpper_eq_self_iff (c : Byte) : toUpper c = c ↔ isLower c = false := by
  constructor
  · intro h
    rw [← h, isLower_toUpper]
  · exact toUpper_eq_self

theorem toCamelCase_cons (c : Byte) (r : Str) : toCamelCase (c :: r) = toUpper c :: lower r := by
  simp [toCamelCase]

/-- A digit has no case, so a word that begins with one is only lower-cased. -/
theorem toCamelCase_digit {d : Byte} (hd : isDigit d = true) (r : Str) :
    toCamelCase (d :: r) = lower (d :: r) := by
  rw [toCamelCase_cons, toUpper_eq_self (isLower_of_isDigit hd), lower_cons,
    toLower_eq_self (isUpper_of_isDigit hd)]

theorem toCamelCase_cons_eq_self_iff (c : Byte) (r : Str) :
    toCamelCase (c :: r) = c :: r ↔ isLower c = false ∧ r.any isUpper = false := by
  rw [toCamelCase_cons, List.cons.injEq, toUpper_eq_self_iff, lower_eq_self_iff]

/-- **The humps of a run are left alone**; induction on the humps. -/
theorem toCamelCase_humps_iff (s : Str) :
    (∀ w ∈ humps s, toCamelCase w = w) ↔ startsIn isLower s = false ∧ hasAcronym s = false := by
  fun_induction humps s with
  | case1 => simp [hasAcronym]
  | case2 c r ih =>
    rw [List.forall_mem_cons, toCamelCase_cons_eq_self_iff, ih, hasAcronym_hump, startsIn_cons,
      Bool.or_eq_false_iff]
    constructor
    · rintro ⟨⟨hc, hany⟩, -, hacr⟩
      exact ⟨hc, hany, hacr⟩
    · rintro ⟨hc, hany, hacr⟩
      exact ⟨⟨hc, hany⟩, hump_next hany, hacr⟩

/-! ## Names that are left alone -/

/-- The first letter has the case of the style.  Digits in front of it make it the inner letter
    of a word. -/
def firstLetterFits (cap : Capitalization) (s : Str) : Bool :=
  if cap = .upperCamelCase ∧ startsIn isDigit s = false then !startsIn isLower s
  else !startsIn isUpper (s.dropWhile isDigit)

theorem convertParts_camelCase {cap : Capitalization}
    (hcap : cap = .upperCamelCase ∨ cap = .lowerCamelCase) (n : Nat) (ws : List Str) :
    convertParts cap (n + 1) ws = ws.map toCamelCase := by
  induction ws generalizing n with
  | nil => rfl
  | cons w ws ih =>
    rw [convertParts, ih, List.map_cons]
    rcases hcap with rfl | rfl <;> rfl

theorem convertIdentifierPart_length (w : Str) (n : Nat) (cap : Capitalization) :
    (convertIdentifierPart w n cap).length = w.length := by
  rw [← lower_length, lower_convertIdentifierPart, lower_length]

theorem convertParts_length (cap : Capitalization) (n : Nat) (ws : List Str) :
    (convertParts cap n ws).map List.length = ws.map List.length := by
  induction ws generalizing n with
  | nil => rfl
  | cons w ws ih =>
    rw [convertParts, List.map_cons, List.map_cons, ih, convertIdentifierPart_length]

theorem convertParts_flatten_eq_iff (cap : Capitalization) (n : Nat) (ws : List Str) :
    (convertParts cap n ws).flatten = ws.flatten ↔ convertParts cap n ws = ws := by
  rw [List.eq_iff_flatten_eq (L := convertParts cap n ws)]
  exact ⟨fun h => ⟨h, convertParts_length cap n ws⟩, fun h => h.1⟩

theorem map_eq_self_iff {f : Str → Str} {ws : List Str} :
    ws.map f = ws ↔ ∀ w ∈ ws, f w = w := by
  induction ws with
  | nil => simp
  | cons w ws ih => rw [List.map_cons, List.cons.injEq, ih, List.forall_mem_cons]

theorem any_isUpper_of_digits {ds : Str} (hds : ∀ x ∈ ds, isDigit x = true) :
    ds.any isUpper = false := by
  rw [List.any_eq_false]
  intro x hx
  simp [isUpper_of_isDigit (hds x hx)]

/-- The first word, with the digits in front of it. -/
theorem convertIdentifierPart_first_iff {cap : Capitalization}
    (hcap : cap = .upperCamelCase ∨ cap = .lowerCamelCase) {ds : Str}
    (hds : ∀ x ∈ ds, isDigit x = true) {c : Byte} (hc : isDigit c = false) (h r : Str) :
    convertIdentifierPart (ds ++ c :: h) 0 cap = ds ++ c :: h ↔
      firstLetterFits cap (ds ++ c :: r) = true ∧ h.any isUpper = false := by
  have hdrop : (ds ++ c :: r).dropWhile isDigit = c :: r := dropWhile_run hds hc
  have hnone := any_isUpper_of_digits hds
  have hlower :
      lower (ds ++ c :: h) = ds ++ c :: h ↔ isUpper c = false ∧ h.any isUpper = false := by
    rw [lower_eq_self_iff, List.any_append, hnone, Bool.false_or, List.any_cons,
      Bool.or_eq_false_iff]
  rcases hcap with rfl | rfl
  · cases ds with
    | nil =>
      show toCamelCase (c :: h) = c :: h ↔ _
      rw [toCamelCase_cons_eq_self_iff]
      simp [firstLetterFits, hc]
    | cons d ds =>
      have hd := hds d List.mem_cons_self
      show toCamelCase (d :: (ds ++ c :: h)) = _ ↔ _
      rw [toCamelCase_digit hd]
      show lower (d :: ds ++ c :: h) = _ ↔ _
      rw [hlower, firstLetterFits, if_neg (by simp [hd]), hdrop]
      simp
  · show lower (ds ++ c :: h) = _ ↔ _
    rw [hlower, firstLetterFits, if_neg (by simp), hdrop]
    simp

theorem restyle_camelCase_eq {style : TypeNameStyle} {id : Str} (h : ∃ x ∈ id, isAlnum x = true)
    (hd : style.wordDelimiter = []) (hpre : style.namePrefix = []) (hsuf : style.nameSuffix = []) :
    restyle style id = (convertParts style.capitalization 0 (words id)).flatten := by
  rw [restyle_eq h hpre hsuf, hd, intercalate_nil_left]

/-- **The names in letters and digits that restyling leaves alone.** -/
theorem restyle_camelCase_eq_self_iff {style : TypeNameStyle} {s : Str} (hne : s ≠ [])
    (hs : ∀ x ∈ s, isAlnum x = true)
    (hcap : style.capitalization = .upperCamelCase ∨ style.capitalization = .lowerCamelCase)
    (hd : style.wordDelimiter = []) (hpre : style.namePrefix = []) (hsuf : style.nameSuffix = []) :
    restyle style s = s ↔
      hasAcronym s = false ∧ firstLetterFits style.capitalization s = true := by
  have halnum : ∃ x ∈ s, isAlnum x = true := by
    obtain ⟨c, r, rfl⟩ := List.exists_cons_of_ne_nil hne
    exact ⟨c, List.mem_cons_self, hs c List.mem_cons_self⟩
  have hfix : restyle style s = s ↔
      convertParts style.capitalization 0 (runWords s) = runWords s := by
    rw [restyle_camelCase_eq halnum hd hpre hsuf, words_of_run hs, ← convertParts_flatten_eq_iff,
      runWords_flatten]
  have hds : ∀ x ∈ s.takeWhile isDigit, isDigit x = true := fun x hx => List.mem_takeWhile_imp hx
  have hsplit := List.takeWhile_append_dropWhile (p := isDigit) (l := s)
  have hstop := startsIn_dropWhile isDigit s
  rw [hfix]
  cases hb : s.dropWhile isDigit with
  | nil =>
    -- digits alone
    rw [hb, List.append_nil] at hsplit
    rw [hsplit] at hds
    have hfixed := convertIdentifierPart_of_no_letter (fun x hx => isAlpha_of_isDigit (hds x hx)) 0
      style.capitalization
    have hnone : ∀ x ∈ s, isUpper x = false := fun x hx => isUpper_of_isDigit (hds x hx)
    have hfits : firstLetterFits style.capitalization s = true := by
      obtain ⟨c, r, rfl⟩ := List.exists_cons_of_ne_nil hne
      simp [firstLetterFits, hb, hds c List.mem_cons_self]
    rw [runWords_of_isWord (.digits hne hds), convertParts, convertParts, hfixed,
      hasAcronym_of_lower hnone, hfits]
    simp
  | cons c r =>
    rw [hb] at hsplit hstop
    have hnone : ∀ x ∈ s.takeWhile isDigit, isUpper x = false := fun x hx =>
      isUpper_of_isDigit (hds x hx)
    have hfirst := convertIdentifierPart_first_iff hcap hds hstop (hump c r).1 r
    rw [hsplit] at hfirst
    have hacr : hasAcronym s = hasAcronym (c :: r) := by
      rw [← hsplit, hasAcronym_append hnone]
    rw [runWords, hb, humps_cons, prependDigits, convertParts, convertParts_camelCase hcap,
      List.cons.injEq, map_eq_self_iff, toCamelCase_humps_iff, hfirst, hacr, hasAcronym_hump,
      Bool.or_eq_false_iff]
    constructor
    · rintro ⟨⟨hfits, hany⟩, -, hrest⟩
      exact ⟨⟨hany, hrest⟩, hfits⟩
    · rintro ⟨⟨hany, hrest⟩, hfits⟩
      exact ⟨⟨hfits, hany⟩, hump_next hany, hrest⟩

/-! ## Joined words -/

/-- The word is a single letter. -/
def oneLetter : Str → Bool
  | [c] => isAlpha c
  | _ => false

/-- The word begins with a letter that has no letter after it. -/
def loneStart (w : Str) : Bool := startsIn isAlpha w && !startsIn isAlpha w.tail

/-- A one-letter word stands directly before a word that begins with a lone letter. -/
def lettersMeet : List Str → Bool
  | [] => false
  | v :: ws => (oneLetter v && startsIn loneStart ws) || lettersMeet ws

/-- The word has digits only. -/
def isNumber (w : Str) : Bool := w.all isDigit

/-- The first words are numbers, and a word that begins with a letter follows them. -/
def numbersFirst (ws : List Str) : Bool :=
  startsIn isNumber ws && startsIn (startsIn isAlpha) (ws.dropWhile isNumber)

theorem isUpper_of_mem_lower {w : Str} : ∀ x ∈ lower w, isUpper x = false := by
  intro x hx
  obtain ⟨y, -, rfl⟩ := List.mem_map.1 hx
  exact isUpper_toLower y

theorem all_isDigit_lower (w : Str) : (lower w).all isDigit = isNumber w := by
  simp [lower, isNumber, List.all_map, Function.comp_def]

/-- The camel-case text of words begins with a capital or a digit. -/
theorem startsIn_isLower_camelCase {ws : List Str} (hne : ∀ w ∈ ws, w ≠ []) :
    startsIn isLower (ws.map toCamelCase).flatten = false := by
  cases ws with
  | nil => rfl
  | cons w ws =>
    obtain ⟨c, r, rfl⟩ := List.exists_cons_of_ne_nil (hne w List.mem_cons_self)
    rw [List.map_cons, List.flatten_cons, toCamelCase_cons, List.cons_append, startsIn_cons,
      isLower_toUpper]

/-- A one-letter word joins to the first letter of the next word. -/
theorem opensAcronym_camelCase (c : Byte) {ws : List Str} (hne : ∀ w ∈ ws, w ≠ []) :
    opensAcronym (toUpper c) (ws.map toCamelCase).flatten =
      (isAlpha c && startsIn loneStart ws) := by
  cases ws with
  | nil => simp [opensAcronym]
  | cons w ws =>
    have hrest := startsIn_isLower_camelCase fun v hv => hne v (List.mem_cons_of_mem _ hv)
    obtain ⟨d, t, rfl⟩ := List.exists_cons_of_ne_nil (hne w List.mem_cons_self)
    have hsecond : startsIn isLower (lower t ++ (ws.map toCamelCase).flatten) =
        startsIn isAlpha t := by
      cases t with
      | nil => exact hrest
      | cons y t => simp
    rw [List.map_cons, List.flatten_cons, toCamelCase_cons, List.cons_append, opensAcronym,
      isUpper_toUpper, startsIn_cons, isUpper_toUpper, List.tail_cons, hsecond, startsIn_cons,
      loneStart, startsIn_cons, List.tail_cons, Bool.and_assoc]

/-- **Acronyms of joined words**; induction on the words. -/
theorem hasAcronym_camelCase {ws : List Str} (hne : ∀ w ∈ ws, w ≠ []) :
    hasAcronym (ws.map toCamelCase).flatten = lettersMeet ws := by
  induction ws with
  | nil => rfl
  | cons w ws ih =>
    have hne' : ∀ v ∈ ws, v ≠ [] := fun v hv => hne v (List.mem_cons_of_mem _ hv)
    obtain ⟨c, r, rfl⟩ := List.exists_cons_of_ne_nil (hne w List.mem_cons_self)
    rw [List.map_cons, List.flatten_cons, toCamelCase_cons, List.cons_append, hasAcronym,
      hasAcronym_append isUpper_of_mem_lower, ih hne', lettersMeet]
    cases r with
    | nil => rw [lower_nil, List.nil_append, opensAcronym_camelCase c hne', oneLetter]
    | cons x r => simp [opensAcronym, oneLetter]

/-- Only a text of digits leaves the next text to give the first letter. -/
theorem startsIn_isUpper_append {u : Str} (hu : ∀ x ∈ u, isUpper x = false) (v : Str) :
    startsIn isUpper ((u ++ v).dropWhile isDigit) =
      (u.all isDigit && startsIn isUpper (v.dropWhile isDigit)) := by
  induction u with
  | nil => rfl
  | cons c r ih =>
    cases hc : isDigit c with
    | true =>
      rw [List.cons_append, List.dropWhile_cons_of_pos hc, List.all_cons, hc, Bool.true_and,
        ih fun x hx => hu x (List.mem_cons_of_mem _ hx)]
    | false => simp [hc, hu c List.mem_cons_self]

/-- **The first letter of joined words**; induction on the words. -/
theorem startsIn_isUpper_camelCase {ws : List Str} (hws : ∀ w ∈ ws, IsWord w) :
    startsIn isUpper ((ws.map toCamelCase).flatten.dropWhile isDigit) =
      startsIn (startsIn isAlpha) (ws.dropWhile isNumber) := by
  induction ws with
  | nil => rfl
  | cons w ws ih =>
    have hword := hws w List.mem_cons_self
    obtain ⟨c, r, rfl⟩ := List.exists_cons_of_ne_nil hword.ne_nil
    rw [List.map_cons, List.flatten_cons]
    cases hc : isDigit c with
    | true =>
      rw [toCamelCase_digit hc, startsIn_isUpper_append isUpper_of_mem_lower, all_isDigit_lower,
        ih fun v hv => hws v (List.mem_cons_of_mem _ hv)]
      cases hn : isNumber (c :: r) with
      | true => rw [List.dropWhile_cons_of_pos hn, Bool.true_and]
      | false => simp [hn, isAlpha_of_isDigit hc]
    | false =>
      have hca : isAlpha c = true := isAlpha_of_isAlnum (hword.alnum c List.mem_cons_self) hc
      have hn : isNumber (c :: r) = false := by simp [isNumber, hc]
      simp [toCamelCase_cons, hc, hca, hn]

theorem numbersFirst_cons (w : Str) (ws : List Str) :
    numbersFirst (w :: ws) =
      (isNumber w && startsIn (startsIn isAlpha) (ws.dropWhile isNumber)) := by
  cases hn : isNumber w with
  | true => simp [numbersFirst, hn]
  | false => simp [numbersFirst, hn]

/-! ## Restyling twice -/

theorem hasAcronym_convertParts {cap : Capitalization}
    (hcap : cap = .upperCamelCase ∨ cap = .lowerCamelCase) {ws : List Str}
    (hws : ∀ w ∈ ws, IsWord w) :
    hasAcronym (convertParts cap 0 ws).flatten =
      lettersMeet (if cap = .upperCamelCase then ws else ws.tail) := by
  cases ws with
  | nil => split <;> rfl
  | cons w ws =>
    have hne : ∀ v ∈ w :: ws, v ≠ [] := fun v hv => (hws v hv).ne_nil
    rw [convertParts, convertParts_camelCase hcap]
    rcases hcap with rfl | rfl
    · exact hasAcronym_camelCase hne
    · show hasAcronym (lower w ++ (ws.map toCamelCase).flatten) = lettersMeet ws
      rw [hasAcronym_append isUpper_of_mem_lower]
      exact hasAcronym_camelCase fun v hv => hne v (List.mem_cons_of_mem _ hv)

theorem firstLetterFits_convertParts {cap : Capitalization}
    (hcap : cap = .upperCamelCase ∨ cap = .lowerCamelCase) {ws : List Str}
    (hws : ∀ w ∈ ws, IsWord w) (hne : ws ≠ []) :
    firstLetterFits cap (convertParts cap 0 ws).flatten = !numbersFirst ws := by
  obtain ⟨w, ws, rfl⟩ := List.exists_cons_of_ne_nil hne
  have hword := hws w List.mem_cons_self
  have hws' : ∀ v ∈ ws, IsWord v := fun v hv => hws v (List.mem_cons_of_mem _ hv)
  obtain ⟨c, r, rfl⟩ := List.exists_cons_of_ne_nil hword.ne_nil
  -- a lower-cased first word: what counts is the first letter after the digits
  have hlower : startsIn isUpper
      ((lower (c :: r) ++ (ws.map toCamelCase).flatten).dropWhile isDigit) =
        numbersFirst ((c :: r) :: ws) := by
    rw [startsIn_isUpper_append isUpper_of_mem_lower, all_isDigit_lower,
      startsIn_isUpper_camelCase hws', numbersFirst_cons]
  rw [convertParts, convertParts_camelCase hcap, List.flatten_cons]
  rcases hcap with rfl | rfl
  · show firstLetterFits _ (toCamelCase (c :: r) ++ _) = _
    cases hc : isDigit c with
    | true =>
      rw [toCamelCase_digit hc, firstLetterFits, if_neg (by simp [hc]), hlower]
    | false =>
      have hn : isNumber (c :: r) = false := by simp [isNumber, hc]
      rw [toCamelCase_cons, numbersFirst_cons, hn, firstLetterFits, if_pos ⟨rfl, by simp [hc]⟩,
        List.cons_append, startsIn_cons, isLower_toUpper, Bool.false_and]
  · show firstLetterFits _ (lower (c :: r) ++ _) = _
    rw [firstLetterFits, if_neg (by simp), hlower]

/-- **Restyling to camel case a second time** changes nothing unless one-letter words or numbers
    at the front made the joined text ambiguous. -/
theorem restyle_camelCase_idempotent_iff (id : Str) (style : TypeNameStyle)
    (h : ∃ x ∈ id, isAlnum x = true)
    (hcap : style.capitalization = .upperCamelCase ∨ style.capitalization = .lowerCamelCase)
    (hd : style.wordDelimiter = []) (hpre : style.namePrefix = []) (hsuf : style.nameSuffix = []) :
    restyle style (restyle style id) = restyle style id ↔
      lettersMeet (if style.capitalization = .upperCamelCase then (splitIdentifer id none).1
        else (splitIdentifer id none).1.tail) = false ∧
      numbersFirst (splitIdentifer id none).1 = false := by
  have hjoin := restyle_camelCase_eq h hd hpre hsuf
  have hne : restyle style id ≠ [] := (startsIn_isDigit_restyle h hpre hsuf).1
  have halnum : ∀ x ∈ restyle style id, isAlnum x = true := by
    intro x hx
    rw [hjoin] at hx
    obtain ⟨v, hv, hxv⟩ := List.mem_flatten.1 hx
    obtain ⟨w, hw, hvw⟩ := mem_convertParts hv
    exact isAlnum_of_lower_eq hvw (words_isWord id w hw).alnum x hxv
  rw [restyle_camelCase_eq_self_iff hne halnum hcap hd hpre hsuf, hjoin, splitIdentifer_eq h,
    hasAcronym_convertParts hcap (words_isWord id),
    firstLetterFits_convertParts hcap (words_isWord id) (words_ne_nil h), Bool.not_eq_true']

theorem restyle_camelCase_idempotent_iff_my_API2 :
    restyle ⟨.upperCamelCase, [], [], []⟩ (restyle ⟨.upperCamelCase, [], [], []⟩
      (bytes "my_API2")) = restyle ⟨.upperCamelCase, [], [], []⟩ (bytes "my_API2") ↔
      lettersMeet (splitIdentifer (bytes "my_API2") none).1 = false ∧
      numbersFirst (splitIdentifer (bytes "my_API2") none).1 = false :=
  restyle_camelCase_idempotent_iff _ _ ⟨0x6D, by decide⟩ (.inl rfl) rfl rfl rfl

/-- `a_b` becomes `AB`, and `AB` is one word. -/
theorem restyle_not_idempotent_a_b :
    (∃ x ∈ bytes "a_b", isAlnum x = true) ∧
    restyle ⟨.upperCamelCase, [], [], []⟩ (restyle ⟨.upperCamelCase, [], [], []⟩ (bytes "a_b")) ≠
      restyle ⟨.upperCamelCase, [], [], []⟩ (bytes "a_b") :=
  ⟨⟨0x61, by decide⟩, by decide⟩

end RefactorCpp

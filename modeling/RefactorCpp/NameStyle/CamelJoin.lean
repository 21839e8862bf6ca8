import RefactorCpp.NameStyle.CamelCase
import RefactorCpp.NameStyle.RoundTrip

/-!
# Words joined in camel case

With no delimiter to help, the splitter finds the words of a joined name by their capitals.

* `humps_camelCase` — the humps of camel-case words are these words, if each has a letter in front
  and something after it.
* `words_lowerAlnum_camelCase` — a first word in small letters keeps to itself, but digits alone
  continue in the next word.
* `splitIdentifer_joinIdentifier_camelCase` — **camel-case names split back into their words.**
-/

set_option autoImplicit false

namespace RefactorCpp

open Runs

/-- A letter and at least one more letter or digit. -/
def HumpWord (w : Str) : Prop :=
  startsIn isAlpha w = true ∧ 2 ≤ w.length ∧ ∀ x ∈ w, isAlnum x = true

theorem HumpWord.cases {w : Str} (h : HumpWord w) :
    ∃ c d r, w = c :: d :: r ∧ isAlpha c = true ∧ ∀ x ∈ d :: r, isAlnum x = true := by
  obtain ⟨hstart, hlen, halnum⟩ := h
  match w with
  | [] => cases hstart
  | [c] =>
    simp only [List.length_cons, List.length_nil] at hlen
    omega
  | c :: d :: r => exact ⟨c, d, r, rfl, hstart, fun x hx => halnum x (List.mem_cons_of_mem _ hx)⟩

theorem isLowerAlnum_of_mem_lower {s : Str} (hs : ∀ x ∈ s, isAlnum x = true) :
    ∀ x ∈ lower s, isLowerAlnum x = true := by
  intro x hx
  obtain ⟨y, hy, rfl⟩ := List.mem_map.1 hx
  exact isLowerAlnum_toLower (hs y hy)

/-- Camel-case words begin with a capital. -/
theorem startsIn_isLowerAlnum_camelCase {ws : List Str} (hws : ∀ w ∈ ws, HumpWord w) :
    startsIn isLowerAlnum (ws.map toCamelCase).flatten = false := by
  cases ws with
  | nil => rfl
  | cons w ws =>
    obtain ⟨c, d, r, rfl, hc, -⟩ := (hws w List.mem_cons_self).cases
    rw [List.map_cons, List.flatten_cons, toCamelCase_cons, List.cons_append, startsIn_cons]
    apply isLowerAlnum_of_isUpper
    rw [isUpper_toUpper, hc]

/-- **One camel-case word** is one hump. -/
theorem hump_camelCase {c d : Byte} {r v : Str}
    (hr : ∀ x ∈ d :: r, isAlnum x = true) (hv : startsIn isLowerAlnum v = false) :
    hump (toUpper c) (lower (d :: r) ++ v) = (lower (d :: r), v) := by
  have hlow := isLowerAlnum_of_mem_lower hr
  have hstart : startsIn isLowerAlnum (lower (d :: r) ++ v) = true :=
    hlow (toLower d) List.mem_cons_self
  unfold hump
  rw [hstart, Bool.not_true, Bool.and_false, if_neg Bool.false_ne_true, takeWhile_run hlow hv,
    dropWhile_run hlow hv]

/-- **All camel-case words**; induction on the words. -/
theorem humps_camelCase {ws : List Str} (hws : ∀ w ∈ ws, HumpWord w) :
    humps (ws.map toCamelCase).flatten = ws.map toCamelCase := by
  induction ws with
  | nil => exact humps_nil
  | cons w ws ih =>
    have hws' : ∀ v ∈ ws, HumpWord v := fun v hv => hws v (List.mem_cons_of_mem _ hv)
    obtain ⟨c, d, r, rfl, -, hr⟩ := (hws w List.mem_cons_self).cases
    rw [List.map_cons, List.flatten_cons, toCamelCase_cons, List.cons_append, humps_cons,
      hump_camelCase hr (startsIn_isLowerAlnum_camelCase hws'), ih hws']

theorem isAlnum_camelCase {ws : List Str} (hws : ∀ w ∈ ws, HumpWord w) :
    ∀ x ∈ (ws.map toCamelCase).flatten, isAlnum x = true := by
  intro x hx
  obtain ⟨v, hv, hxv⟩ := List.mem_flatten.1 hx
  obtain ⟨w, hw, rfl⟩ := List.mem_map.1 hv
  exact isAlnum_of_lower_eq (lower_toCamelCase w) (hws w hw).2.2 x hxv

theorem words_camelCase {ws : List Str} (hws : ∀ w ∈ ws, HumpWord w) :
    words (ws.map toCamelCase).flatten = ws.map toCamelCase := by
  have hdigit : startsIn isDigit (ws.map toCamelCase).flatten = false :=
    startsIn_of_imp (fun _ => isLowerAlnum_of_isDigit) (startsIn_isLowerAlnum_camelCase hws)
  rw [words_of_run (isAlnum_camelCase hws), runWords_of_startsIn hdigit, humps_camelCase hws]

/-- A small letter begins a hump of small letters and digits. -/
theorem hump_lower {c : Byte} {r v : Str} (hc : isLower c = true)
    (hr : ∀ x ∈ r, isLowerAlnum x = true) (hv : startsIn isLowerAlnum v = false) :
    hump c (r ++ v) = (r, v) := by
  unfold hump
  rw [isUpper_of_isLower hc, Bool.false_and, if_neg Bool.false_ne_true, takeWhile_run hr hv,
    dropWhile_run hr hv]

/-- A first word of digits only is joined with the second. -/
def gluedDigits : List Str → List Str
  | u :: w :: ws => if isNumber u then (u ++ w) :: ws else u :: w :: ws
  | ws => ws

theorem gluedDigits_ne_nil (u : Str) (ws : List Str) : gluedDigits (u :: ws) ≠ [] := by
  unfold gluedDigits
  split
  · split <;> exact List.cons_ne_nil _ _
  · exact List.cons_ne_nil u ws

theorem gluedDigits_of_not_isNumber {u : Str} (hu : isNumber u = false) (ws : List Str) :
    gluedDigits (u :: ws) = u :: ws := by
  cases ws with
  | nil => rfl
  | cons w ws => rw [gluedDigits, if_neg (by simp [hu])]

theorem gluedDigits_of_isNumber {u : Str} (hne : u ≠ []) (hu : isNumber u = true)
    (ws : List Str) : gluedDigits (u :: ws) = prependDigits u ws := by
  cases ws with
  | nil => simp [gluedDigits, prependDigits, hne]
  | cons w ws => rw [gluedDigits, if_pos hu, prependDigits]

/-- Small letters and digits before a text that goes on with a capital. -/
theorem words_lowerAlnum_append {u v : Str} (hne : u ≠ [])
    (hu : ∀ x ∈ u, isLowerAlnum x = true) (hv : startsIn isLowerAlnum v = false)
    (hvalnum : ∀ x ∈ v, isAlnum x = true) : words (u ++ v) = gluedDigits (u :: humps v) := by
  have halnum : ∀ x ∈ u ++ v, isAlnum x = true := by
    intro x hx
    rcases List.mem_append.1 hx with hx | hx
    · exact isAlnum_of_isLowerAlnum (hu x hx)
    · exact hvalnum x hx
  rw [words_of_run halnum, runWords]
  obtain ⟨ds, b, rfl, hds, hb⟩ := run_split isDigit u
  cases b with
  | nil =>
    -- digits only: the first capital continues their word
    have hstop : startsIn isDigit v = false := startsIn_of_imp (fun _ => isLowerAlnum_of_isDigit) hv
    rw [List.append_nil] at hne ⊢
    rw [takeWhile_run hds hstop, dropWhile_run hds hstop,
      gluedDigits_of_isNumber hne (List.all_eq_true.2 hds)]
  | cons c r =>
    have hc : isLower c = true := by
      have := hu c (by simp)
      rw [startsIn_cons] at hb
      simpa [isLowerAlnum, hb] using this
    have hr : ∀ x ∈ r, isLowerAlnum x = true := fun x hx => hu x (by simp [hx])
    have hnum : isNumber (ds ++ c :: r) = false := by
      rw [startsIn_cons] at hb
      simp [isNumber, hb]
    have hstop : startsIn isDigit (c :: r ++ v) = false := hb
    rw [gluedDigits_of_not_isNumber hnum, List.append_assoc, takeWhile_run hds hstop,
      dropWhile_run hds hstop, List.cons_append, humps_cons, hump_lower hc hr hv, prependDigits]

/-- **Small letters and digits before camel-case words.** -/
theorem words_lowerAlnum_camelCase {u : Str} {ws : List Str} (hne : u ≠ [])
    (hu : ∀ x ∈ u, isLowerAlnum x = true) (hws : ∀ w ∈ ws, HumpWord w) :
    words (u ++ (ws.map toCamelCase).flatten) = gluedDigits (u :: ws.map toCamelCase) := by
  rw [words_lowerAlnum_append hne hu (startsIn_isLowerAlnum_camelCase hws) (isAlnum_camelCase hws),
    humps_camelCase hws]

/-- A word in small letters before camel-case words. -/
theorem words_lower_camelCase {c : Byte} {r : Str} {ws : List Str} (hc : isLower c = true)
    (hr : ∀ x ∈ r, isLowerAlnum x = true) (hws : ∀ w ∈ ws, HumpWord w) :
    words (c :: r ++ (ws.map toCamelCase).flatten) = (c :: r) :: ws.map toCamelCase := by
  have hu : ∀ x ∈ c :: r, isLowerAlnum x = true :=
    List.forall_mem_cons.2 ⟨isLowerAlnum_of_isLower hc, hr⟩
  have hnum : isNumber (c :: r) = false := by simp [isNumber, isDigit_of_isLower hc]
  rw [words_lowerAlnum_camelCase (List.cons_ne_nil c r) hu hws, gluedDigits_of_not_isNumber hnum]

/-! ## Splitting a joined name -/

/-- The first letter as a capital and the rest in small letters. -/
def capitalized (w : Str) : Str := upper (w.take 1) ++ lower (w.drop 1)

theorem toCamelCase_eq_capitalized : toCamelCase = capitalized := by
  funext w
  cases w with
  | nil => rfl
  | cons c r => exact toCamelCase_cons c r

theorem joinIdentifier_camelCase (ws : List Str) {style : TypeNameStyle}
    (hd : style.wordDelimiter = []) (hpre : style.namePrefix = []) (hsuf : style.nameSuffix = []) :
    joinIdentifier ws style = (convertParts style.capitalization 0 ws).flatten := by
  unfold joinIdentifier
  rw [hd, hpre, hsuf, List.nil_append, List.append_nil, intercalate_nil_left]

/-- **Camel-case names split back into their words.** -/
theorem splitIdentifer_joinIdentifier_camelCase (ws : List Str) (style : TypeNameStyle)
    (ok : Option Bool) (hne : ws ≠ []) (halnum : ∀ w ∈ ws, ∀ x ∈ w, isAlnum x = true)
    (hstart : ∀ w ∈ ws, startsIn isAlpha w = true)
    (hcap : style.capitalization = .upperCamelCase ∨ style.capitalization = .lowerCamelCase)
    (hlen : ∀ w ∈ if style.capitalization = .upperCamelCase then ws else ws.tail, 2 ≤ w.length)
    (hd : style.wordDelimiter = []) (hpre : style.namePrefix = []) (hsuf : style.nameSuffix = []) :
    splitIdentifer (joinIdentifier ws style) ok =
      (if style.capitalization = .upperCamelCase then ws.map capitalized
        else (ws.take 1).map lower ++ (ws.drop 1).map capitalized, ok.map fun _ => true) := by
  have hwords : words (joinIdentifier ws style) =
      if style.capitalization = .upperCamelCase then ws.map capitalized
        else (ws.take 1).map lower ++ (ws.drop 1).map capitalized := by
    rw [joinIdentifier_camelCase ws hd hpre hsuf, ← toCamelCase_eq_capitalized]
    obtain ⟨w, ws, rfl⟩ := List.exists_cons_of_ne_nil hne
    rw [convertParts, convertParts_camelCase hcap]
    rcases hcap with hcap | hcap
    · rw [hcap, if_pos rfl] at hlen ⊢
      exact words_camelCase fun v hv => ⟨hstart v hv, hlen v hv, halnum v hv⟩
    · rw [hcap, if_neg (by decide)] at hlen ⊢
      have hws : ∀ v ∈ ws, HumpWord v := fun v hv =>
        ⟨hstart v (List.mem_cons_of_mem _ hv), hlen v hv, halnum v (List.mem_cons_of_mem _ hv)⟩
      have hw := halnum w List.mem_cons_self
      have hhead := hstart w List.mem_cons_self
      cases w with
      | nil => cases hhead
      | cons c r =>
        have hc : isLower (toLower c) = true := by rw [isLower_toLower]; exact hhead
        have hr := isLowerAlnum_of_mem_lower fun x hx => hw x (List.mem_cons_of_mem c hx)
        exact words_lower_camelCase hc hr hws
  apply splitIdentifer_of_words hwords
  obtain ⟨w, ws, rfl⟩ := List.exists_cons_of_ne_nil hne
  split <;> simp

theorem splitIdentifer_joinIdentifier_camelCase_m_cLaSs2x :
    splitIdentifer (joinIdentifier (["m", "cLaSs2x"].map bytes) ⟨.lowerCamelCase, [], [], []⟩)
      (some false) = (["m", "Class2x"].map bytes, some true) :=
  splitIdentifer_joinIdentifier_camelCase (["m", "cLaSs2x"].map bytes)
    ⟨.lowerCamelCase, [], [], []⟩ (some false) (by decide) (by decide) (by decide) (.inr rfl)
    (by decide) rfl rfl rfl

end RefactorCpp

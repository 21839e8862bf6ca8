import RefactorCpp.NameStyle.CamelJoin
import RefactorCpp.NameStyle.UpperCase

/-!
# The grammars of single styles

`namestyle.cpp` also has a rule for each style.  On the identifiers that such a rule reads to the
end its words are compared with those of the general rule.

* `listId_spec` — words with one separator between them: every word is cut on its own.
* `itemCamelCase_spec`, `many_camelCase_spec` — what the camel-case rules read.
* `styleGrammars_agree` — **small letters and upper camel case agree with the general rule**; lower
  camel case does up to a first word of digits, and capitals do unless digits follow the first
  letter of a run and precede another letter.
-/

set_option autoImplicit false

namespace RefactorCpp

open Peg Runs

variable (k : Context Byte)

/-- A full parse of the identifier yields the words that the splitter returns. -/
def Agrees (p : Parser Byte Str) (id : Str) : Prop :=
  ∀ ws, tryParse id p isSpace = (true, ws) →
    ∀ ok, splitIdentifer id ok = (ws, ok.map fun _ => true)

/-! ## Lists of words -/

theorem upperAlnum_eq : upperAlnum = char isUpperAlnum := alt_char isUpper isDigit

section ListId

variable {f : Byte → Bool}

/-- A word of the class `f`. -/
def WordOf (f : Byte → Bool) (w : Str) : Prop := w ≠ [] ∧ ∀ x ∈ w, f x = true

/-- One word, as long as possible. -/
theorem itemWord_spec {s r : Str} {a : List Str}
    (h : item (lexeme (many1 (char f))) k.off s = .ok a r) :
    ∃ u, a = [u] ∧ s = u ++ r ∧ WordOf f u := by
  unfold item at h
  obtain ⟨u, hu, rfl⟩ := mapAttr_eq_ok h
  rw [lexeme_off] at hu
  obtain ⟨x, t, rfl, hx, rfl, rfl⟩ := many1_char_eq_ok hu
  have hall : ∀ y ∈ x :: t.takeWhile f, f y = true :=
    List.forall_mem_cons.2 ⟨hx, fun y hy => List.mem_takeWhile_imp hy⟩
  refine ⟨x :: t.takeWhile f, rfl, ?_, List.cons_ne_nil _ _, hall⟩
  rw [List.cons_append, List.takeWhile_append_dropWhile]

theorem itemWord_progress : Progress (item (lexeme (many1 (char f)))) :=
  item_progress (lexeme_progress (many1_progress (char_progress f)))

theorem itemWord_noAbort : NoAbort (item (lexeme (many1 (char f)))) :=
  item_noAbort (lexeme_noAbort (many1_noAbort (char_progress f) (char_noAbort f)))

theorem idSep_eq_ok {s r : Str} {a : List Str} (h : idSep k.off s = .ok a r) :
    ∃ c, s = c :: r ∧ isAlnum c = false ∧ a = [] := by
  obtain ⟨_, hc, rfl⟩ := mapAttr_eq_ok h
  obtain ⟨c, rfl, hsep, -⟩ := char_eq_ok hc
  exact ⟨c, rfl, by simpa using hsep, rfl⟩

/-- What the loop of a list has read: words behind separators, which are cut one by one. -/
structure ListRest (f : Byte → Bool) (s : Str) (ws : List Str) (t : Str) : Prop where
  wordOf : ∀ w ∈ ws, WordOf f w
  behind : ∀ w ∈ ws, ∃ p c q, s = p ++ c :: (w ++ q) ∧ isAlnum c = false
  cut : startsIn isAlnum t = false →
    startsIn isAlnum s = false ∧ words s = ws.flatMap words ++ words t

theorem ListRest.turn (hf : ∀ x, f x = true → isAlnum x = true) {c : Byte} {u r t : Str}
    {ws : List Str} (hc : isAlnum c = false) (hu : WordOf f u) (h : ListRest f r ws t) :
    ListRest f (c :: (u ++ r)) ([u] ++ ws) t := by
  constructor
  · exact List.forall_mem_cons.2 ⟨hu, h.wordOf⟩
  · intro w hw
    rcases List.mem_cons.1 hw with rfl | hw
    · exact ⟨[], c, r, rfl, hc⟩
    · obtain ⟨p, c', q, rfl, hc'⟩ := h.behind w hw
      exact ⟨c :: (u ++ p), c', q, by simp, hc'⟩
  · intro ht
    obtain ⟨hr, hwords⟩ := h.cut ht
    refine ⟨hc, ?_⟩
    have halnum : ∀ x ∈ u, isAlnum x = true := fun x hx => hf x (hu.2 x hx)
    rw [words_cons_sep _ hc, words_run_append halnum hr, hwords, ← words_of_run halnum,
      List.flatMap_append, List.flatMap_singleton, List.append_assoc]

/-- **The loop of a list**; one turn reads a separator and a word. -/
theorem many_listRest (hf : ∀ x, f x = true → isAlnum x = true) {s t : Str} {ws : List Str}
    (h : many (seq idSep (item (lexeme (many1 (char f))))) k.off s = .ok ws t) :
    ListRest f s ws t := by
  have hsep : Progress (idSep : Parser Byte Str) := omitted_progress (char_progress _)
  have hsep' : NoAbort (idSep : Parser Byte Str) := omitted_noAbort (char_noAbort _)
  refine many_induction (seq_progress hsep itemWord_progress.nonGrowing)
    (seq_noAbort hsep' itemWord_noAbort) ?_ ?_ h
  · intro s _
    exact ⟨by simp, by simp, fun hs => ⟨hs, rfl⟩⟩
  · intro s a r ws t hturn hrest
    obtain ⟨_, r₁, _, h₁, h₂, rfl⟩ := seq_eq_ok hturn
    obtain ⟨c, rfl, hc, rfl⟩ := idSep_eq_ok k h₁
    obtain ⟨u, rfl, rfl, hu⟩ := itemWord_spec k h₂
    exact hrest.turn hf hc hu

/-- **Words with one separator between them**: every word is cut on its own. -/
theorem listId_spec (hf : ∀ x, f x = true → isAlnum x = true) {id : Str} {ws : List Str}
    (h : tryParse id (noSkip (listOf (item (lexeme (many1 (char f)))) idSep)) isSpace =
      (true, ws)) :
    ws ≠ [] ∧ words id = ws.flatMap words ∧
      ∀ w ∈ ws, WordOf f w ∧ ∃ p q, id = p ++ w ++ q ∧ AtRunStart p := by
  obtain ⟨t, hparse, hspace⟩ := tryParse_eq_true h
  obtain ⟨_, r, ws', h₁, h₂, rfl⟩ := seq_eq_ok hparse
  obtain ⟨u, rfl, rfl, hu⟩ := itemWord_spec _ h₁
  have hrest := many_listRest _ hf h₂
  have hsep : ∀ x ∈ t, isAlnum x = false := fun x hx => isAlnum_of_isSpace (hspace x hx)
  obtain ⟨hr, hwords⟩ := hrest.cut (startsIn_of_forall hsep)
  have halnum : ∀ x ∈ u, isAlnum x = true := fun x hx => hf x (hu.2 x hx)
  refine ⟨List.cons_ne_nil _ _, ?_, ?_⟩
  · rw [words_run_append halnum hr, hwords, words_of_sep hsep, List.append_nil,
      ← words_of_run halnum, List.flatMap_append, List.flatMap_singleton]
  · intro w hw
    rcases List.mem_cons.1 hw with rfl | hw
    · exact ⟨hu, [], r, rfl, by simp [AtRunStart]⟩
    · obtain ⟨p, c, q, rfl, hc⟩ := hrest.behind w hw
      refine ⟨hrest.wordOf w hw, u ++ p ++ [c], q, by simp, ?_⟩
      intro z hz
      obtain rfl : c = z := by simpa using hz
      exact hc

end ListId

/-- **Words in small letters** are not cut again. -/
theorem isWord_of_lowerAlnum {u : Str} (hu : WordOf isLowerAlnum u) : IsWord u := by
  obtain ⟨hne, hlow⟩ := hu
  obtain ⟨ds, b, rfl, hds, hb⟩ := run_split isDigit u
  cases b with
  | nil =>
    rw [List.append_nil] at hne ⊢
    exact .digits hne hds
  | cons c r =>
    apply IsWord.body hds
    apply Body.humped
    · exact isAlpha_of_isAlnum (isAlnum_of_isLowerAlnum (hlow c (by simp))) hb
    · exact fun x hx => hlow x (by simp [hx])

theorem lowerCaseId_agrees (id : Str) : Agrees lowerCaseId id := by
  intro ws h ok
  unfold lowerCaseId lowerCase at h
  rw [lowerAlnum_eq] at h
  obtain ⟨hne, hwords, hall⟩ := listId_spec (fun _ => isAlnum_of_isLowerAlnum) h
  rw [flatMap_words fun w hw => isWord_of_lowerAlnum (hall w hw).1] at hwords
  exact splitIdentifer_of_words hwords hne ok

/-! ### Capitals -/

/-- The first letter of a run, possibly after digits, is followed by digits and another letter. -/
def DigitsAfterFirstLetter (id : Str) : Prop :=
  ∃ p ds c es d q, id = p ++ (ds ++ c :: (es ++ d :: q)) ∧ AtRunStart p ∧
    (∀ x ∈ ds, isDigit x = true) ∧ isAlpha c = true ∧ es ≠ [] ∧ (∀ x ∈ es, isDigit x = true) ∧
    isAlpha d = true

theorem upper_lower_of_isUpperAlnum {w : Str} (hw : ∀ x ∈ w, isUpperAlnum x = true) :
    upper (lower w) = w := by
  have hself : ∀ x ∈ w, (toUpper ∘ toLower) x = x := by
    intro x hx
    rw [Function.comp_apply, toUpper_toLower, toUpper_eq_self (isLower_of_isUpperAlnum (hw x hx))]
  unfold upper lower
  rw [List.map_map, List.map_congr_left hself, List.map_id']

theorem digitsThenLower_lower {h : Str} (hfol : DigitsThenLower (lower h)) :
    ∃ es d q, h = es ++ d :: q ∧ es ≠ [] ∧ (∀ x ∈ es, isDigit x = true) ∧ isAlpha d = true := by
  obtain ⟨es, t, rfl, hes, ht⟩ := run_split isDigit h
  obtain ⟨hstart, hlow⟩ := hfol
  have happ : lower (es ++ t) = lower es ++ lower t := List.map_append
  have hstop : startsIn isDigit (lower t) = false := by
    cases t with
    | nil => rfl
    | cons d q => rwa [lower_cons, startsIn_cons, isDigit_toLower]
  rw [happ, dropWhile_run (digits_lower hes) hstop] at hlow
  cases t with
  | nil => cases hlow
  | cons d q =>
    refine ⟨es, d, q, rfl, ?_, hes, ?_⟩
    · rintro rfl
      rw [happ, lower_nil, List.nil_append, hstop] at hstart
      cases hstart
    · rwa [lower_cons, startsIn_cons, isLower_toLower] at hlow

/-- A capital word that is cut again has digits after its first letter. -/
theorem digitsAfterFirstLetter_of_cutWord {p w q : Str} (hp : AtRunStart p)
    (hcut : CutWord (lower w)) : DigitsAfterFirstLetter (p ++ w ++ q) := by
  obtain ⟨ds', c', h', heq, hds, hc, hfol⟩ := hcut
  obtain ⟨ds, t, rfl, rfl, ht⟩ := List.map_eq_append_iff.1 heq
  obtain ⟨c, h, rfl, rfl, rfl⟩ := List.map_eq_cons_iff.1 ht
  obtain ⟨es, d, q', rfl, hne, hes, hd⟩ := digitsThenLower_lower hfol
  refine ⟨p, ds, c, es, d, q' ++ q, by simp, hp, ?_, ?_, hne, hes, hd⟩
  · intro x hx
    rw [← isDigit_toLower]
    exact hds _ (List.mem_map_of_mem hx)
  · rwa [isAlpha_toLower] at hc

theorem upperCaseId_agrees {id : Str} (hid : ¬ DigitsAfterFirstLetter id) :
    Agrees upperCaseId id := by
  intro ws h ok
  unfold upperCaseId upperCase at h
  rw [upperAlnum_eq] at h
  obtain ⟨hne, hwords, hall⟩ := listId_spec (fun _ => isAlnum_of_isUpperAlnum) h
  rw [flatMap_eq_self ?_] at hwords
  · exact splitIdentifer_of_words hwords hne ok
  intro w hw
  obtain ⟨⟨hwne, hcap⟩, p, q, rfl, hp⟩ := hall w hw
  have halnum : ∀ x ∈ w, isAlnum x = true := fun x hx => isAlnum_of_isUpperAlnum (hcap x hx)
  -- in small letters it is a word, and in capitals it is not cut again
  have hword : IsWord (lower w) :=
    isWord_of_lowerAlnum ⟨by simpa [lower] using hwne, isLowerAlnum_of_mem_lower halnum⟩
  have hnocut : ¬ CutWord (lower w) := fun hcut => hid (digitsAfterFirstLetter_of_cutWord hp hcut)
  have hrun := (runWords_upper_iff hword).2 hnocut
  rwa [upper_lower_of_isUpperAlnum hcap, ← words_of_run halnum] at hrun

/-! ## Camel case -/

/-- A camel-case word, which the conversion to camel case leaves alone. -/
def CamelWord (w : Str) : Prop := HumpWord w ∧ toCamelCase w = w

theorem itemCamelCase_spec {s r : Str} {a : List Str} (h : item camelCase k.off s = .ok a r) :
    ∃ w, a = [w] ∧ s = w ++ r ∧ CamelWord w := by
  unfold item camelCase at h
  rw [lowerAlnum_eq] at h
  obtain ⟨w, hw, rfl⟩ := mapAttr_eq_ok h
  obtain ⟨_, r₁, _, h₁, h₂, rfl⟩ := seq_eq_ok hw
  obtain ⟨c, rfl, hc, rfl⟩ := char_eq_ok h₁
  obtain ⟨x, t, rfl, hx, rfl, rfl⟩ := many1_char_eq_ok h₂
  have hlow : ∀ y ∈ x :: t.takeWhile isLowerAlnum, isLowerAlnum y = true :=
    List.forall_mem_cons.2 ⟨hx, fun y hy => List.mem_takeWhile_imp hy⟩
  refine ⟨_, rfl, by simp, ⟨?_, by simp, ?_⟩, ?_⟩
  · show isAlpha c = true
    simp [isAlpha, hc]
  · exact List.forall_mem_cons.2
      ⟨isAlnum_of_isUpper hc, fun y hy => isAlnum_of_isLowerAlnum (hlow y hy)⟩
  · apply (toCamelCase_cons_eq_self_iff c _).2
    refine ⟨isLower_of_isUpper hc, List.any_eq_false.2 fun y hy => ?_⟩
    simp [isUpper_of_isLowerAlnum (hlow y hy)]

theorem camelCase_progress : Progress (item camelCase) := by
  unfold camelCase
  rw [lowerAlnum_eq]
  exact item_progress (lexeme_progress (seq_progress (char_progress _)
    (many1_progress (char_progress _)).nonGrowing))

theorem camelCase_noAbort : NoAbort (item camelCase) := by
  unfold camelCase
  rw [lowerAlnum_eq]
  exact item_noAbort (lexeme_noAbort (seq_noAbort (char_noAbort _)
    (many1_noAbort (char_progress _) (char_noAbort _))))

/-- **The loop of camel-case words.** -/
theorem many_camelCase_spec {s t : Str} {ws : List Str}
    (h : many (item camelCase) k.off s = .ok ws t) :
    s = ws.flatten ++ t ∧ ∀ w ∈ ws, CamelWord w := by
  refine many_induction camelCase_progress camelCase_noAbort
    (I := fun s ws t => s = ws.flatten ++ t ∧ ∀ w ∈ ws, CamelWord w) ?_ ?_ h
  · intro s _
    exact ⟨rfl, by simp⟩
  · rintro s a r ws t hturn ⟨rfl, hws⟩
    obtain ⟨w, rfl, rfl, hw⟩ := itemCamelCase_spec k hturn
    exact ⟨by simp, List.forall_mem_cons.2 ⟨hw, hws⟩⟩

theorem map_toCamelCase_of_camelWord {ws : List Str} (hws : ∀ w ∈ ws, CamelWord w) :
    ws.map toCamelCase = ws := by
  rw [List.map_congr_left (g := fun w => w) fun w hw => (hws w hw).2, List.map_id']

theorem upperCamelCaseId_agrees (id : Str) : Agrees upperCamelCaseId id := by
  intro ws h ok
  obtain ⟨t, hparse, hspace⟩ := tryParse_eq_true h
  have hsep : ∀ x ∈ t, isAlnum x = false := fun x hx => isAlnum_of_isSpace (hspace x hx)
  obtain ⟨_, r, vs, h₁, h₂, rfl⟩ := seq_eq_ok hparse
  obtain ⟨w, rfl, rfl, hw⟩ := itemCamelCase_spec _ h₁
  obtain ⟨rfl, hvs⟩ := many_camelCase_spec _ h₂
  have hall : ∀ v ∈ w :: vs, CamelWord v := List.forall_mem_cons.2 ⟨hw, hvs⟩
  have hwords := words_camelCase fun v hv => (hall v hv).1
  rw [map_toCamelCase_of_camelWord hall] at hwords
  refine splitIdentifer_of_words ?_ (List.cons_ne_nil _ _) ok
  rw [← List.append_assoc, words_append_of_sep _ hsep, ← List.flatten_cons, hwords]
  rfl

/-- **Lower camel case**: digits at the start are joined with the word after them. -/
theorem lowerCamelCaseId_spec {id : Str} {ws : List Str}
    (h : tryParse id lowerCamelCaseId isSpace = (true, ws)) (ok : Option Bool) :
    splitIdentifer id ok = (gluedDigits ws, ok.map fun _ => true) := by
  unfold lowerCamelCaseId lowerCase at h
  rw [lowerAlnum_eq] at h
  obtain ⟨t, hparse, hspace⟩ := tryParse_eq_true h
  have hsep : ∀ x ∈ t, isAlnum x = false := fun x hx => isAlnum_of_isSpace (hspace x hx)
  obtain ⟨_, r, vs, h₁, h₂, rfl⟩ := seq_eq_ok hparse
  obtain ⟨u, rfl, rfl, hne, hu⟩ := itemWord_spec _ h₁
  obtain ⟨rfl, hvs⟩ := many_camelCase_spec _ (expect_eq_ok h₂)
  have hwords := words_lowerAlnum_camelCase hne hu fun v hv => (hvs v hv).1
  rw [map_toCamelCase_of_camelWord hvs] at hwords
  refine splitIdentifer_of_words ?_ ?_ ok
  · rw [← List.append_assoc, words_append_of_sep _ hsep, hwords]
    rfl
  · exact gluedDigits_ne_nil u vs

/-- **The grammars of single styles against the general one.** -/
theorem styleGrammars_agree (id : Str) :
    Agrees lowerCaseId id ∧ Agrees upperCamelCaseId id ∧
      (¬ DigitsAfterFirstLetter id → Agrees upperCaseId id) ∧
      ∀ ws, tryParse id lowerCamelCaseId isSpace = (true, ws) →
        ∀ ok, splitIdentifer id ok = (gluedDigits ws, ok.map fun _ => true) :=
  ⟨lowerCaseId_agrees id, upperCamelCaseId_agrees id, upperCaseId_agrees,
    fun _ h ok => lowerCamelCaseId_spec h ok⟩

example : tryParse (bytes "HTTP_2X ") upperCaseId isSpace = (true, ["HTTP", "2X"].map bytes) := by
  decide

/-- `2Th` is one word with digits in front, but `2` and `Th` in lower camel case.  `A1B` is one
    word in capitals, but `A1` and `B`. -/
theorem styleGrammars_2Th_A1B :
    (¬ ∀ id : Str, Agrees lowerCamelCaseId id) ∧ ¬ ∀ id : Str, Agrees upperCaseId id := by
  constructor
  · intro hall
    have h := hall (bytes "2Th") (["2", "Th"].map bytes) (by decide) none
    revert h
    decide
  · intro hall
    have h := hall (bytes "A1B") (["A1B"].map bytes) (by decide) none
    revert h
    decide

end RefactorCpp

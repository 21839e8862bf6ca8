import RefactorCpp.NameStyle.Through

/-!
# The languages of the style grammars

What each of the rules for one style accepts, in full, and which words it returns.

* `many_sepWord`, `many_camelCase` — the loops read back what they are given, with any rest that
  does not continue it.
* `styleGrammars_language` — **the languages of the four rules**.
* `styleGrammars_readBack` — **joined names are read back by the rule of their style**: always with
  one separator between the words, also in capitals, and in camel case if every word has a
  letter in front and something behind it.
-/

set_option autoImplicit false

namespace RefactorCpp

open Peg Runs

variable (k : Context Byte)

/-! ## Words behind separators -/

/-- Words with a separator in front of each. -/
def sepWords (ps : List (Byte × Str)) : Str := ps.flatMap fun p => p.1 :: p.2

/-- Words of a class with one separator between them, and blanks behind the last one. -/
def ListName (f : Byte → Bool) (id : Str) (ws : List Str) : Prop :=
  ∃ w ps t, ws = w :: ps.map Prod.snd ∧ id = w ++ (sepWords ps ++ t) ∧
    (∀ v ∈ ws, WordOf f v) ∧ (∀ p ∈ ps, isAlnum p.1 = false) ∧ ∀ x ∈ t, isSpace x = true

section ListId

variable {f : Byte → Bool}

theorem idSep_cons {c : Byte} (hc : isAlnum c = false) (r : Str) :
    (idSep : Parser Byte Str) k.off (c :: r) = .ok [] r := by
  simp [idSep, omitted, char_cons, hc]

theorem itemWord_append {u v : Str} (hu : WordOf f u) (hv : startsIn f v = false) :
    item (lexeme (many1 (char f))) k.off (u ++ v) = .ok [u] v := by
  obtain ⟨hne, hall⟩ := hu
  obtain ⟨x, r, rfl⟩ := List.exists_cons_of_ne_nil hne
  have hr : ∀ y ∈ r, f y = true := fun y hy => hall y (List.mem_cons_of_mem _ hy)
  apply item_ok
  rw [lexeme_off, List.cons_append, many1_char_cons f k _ (hall x List.mem_cons_self),
    takeWhile_run hr hv, dropWhile_run hr hv]

theorem itemWord_fail {s : Str} (hs : startsIn f s = false) :
    item (lexeme (many1 (char f))) k.off s = .fail := by
  apply item_fail
  rw [lexeme_off]
  apply many1_char_fail
  rintro x r rfl
  exact hs

theorem startsIn_sepWords {ps : List (Byte × Str)} {t : Str}
    (hps : ∀ p ∈ ps, isAlnum p.1 = false) (ht : ∀ x ∈ t, isSpace x = true) :
    startsIn isAlnum (sepWords ps ++ t) = false := by
  cases ps with
  | nil => exact startsIn_of_forall fun x hx => isAlnum_of_isSpace (ht x hx)
  | cons p ps => exact hps p List.mem_cons_self

/-- **The loop of a list reads back its words** and leaves the blanks. -/
theorem many_sepWord (hf : ∀ x, f x = true → isAlnum x = true) {t : Str}
    (ht : ∀ x ∈ t, isSpace x = true) (ps : List (Byte × Str))
    (hps : ∀ p ∈ ps, isAlnum p.1 = false ∧ WordOf f p.2) :
    many (seq idSep (item (lexeme (many1 (char f))))) k.off (sepWords ps ++ t) =
      .ok (ps.map Prod.snd) t := by
  have hprog : Progress (seq idSep (item (lexeme (many1 (char f))))) :=
    seq_progress (omitted_progress (char_progress _)) itemWord_progress.nonGrowing
  have hstop : ∀ {s : Str}, startsIn isAlnum s = false → startsIn f s = false := fun h =>
    startsIn_of_imp hf h
  induction ps with
  | nil =>
    have hfail : seq idSep (item (lexeme (many1 (char f)))) k.off t = .fail := by
      cases t with
      | nil => rfl
      | cons c t =>
        have hc := isAlnum_of_isSpace (ht c List.mem_cons_self)
        have hrest : startsIn isAlnum t = false := startsIn_of_forall fun x hx =>
          isAlnum_of_isSpace (ht x (List.mem_cons_of_mem _ hx))
        rw [seq_ok (idSep_cons k hc t), itemWord_fail k (hstop hrest)]
        rfl
    show many _ k.off t = _
    rw [many_eq hprog, hfail]
    rfl
  | cons p ps ih =>
    obtain ⟨hc, hw⟩ := hps p List.mem_cons_self
    have hps' : ∀ q ∈ ps, isAlnum q.1 = false ∧ WordOf f q.2 := fun q hq =>
      hps q (List.mem_cons_of_mem _ hq)
    have hrest := startsIn_sepWords (fun q hq => (hps' q hq).1) ht
    have hturn : seq idSep (item (lexeme (many1 (char f)))) k.off (sepWords (p :: ps) ++ t) =
        .ok [p.2] (sepWords ps ++ t) := by
      rw [show sepWords (p :: ps) ++ t = p.1 :: (p.2 ++ (sepWords ps ++ t)) by simp [sepWords],
        seq_ok (idSep_cons k hc _), itemWord_append k hw (hstop hrest)]
      rfl
    rw [many_eq hprog, hturn]
    simp only [ih hps']
    rfl

/-- What the loop of a list has read. -/
theorem many_sepWord_spec {s t : Str} {ws : List Str}
    (h : many (seq idSep (item (lexeme (many1 (char f))))) k.off s = .ok ws t) :
    ∃ ps, ws = ps.map Prod.snd ∧ s = sepWords ps ++ t ∧
      ∀ p ∈ ps, isAlnum p.1 = false ∧ WordOf f p.2 := by
  have hsep : Progress (idSep : Parser Byte Str) := omitted_progress (char_progress _)
  have hsep' : NoAbort (idSep : Parser Byte Str) := omitted_noAbort (char_noAbort _)
  refine many_induction (seq_progress hsep itemWord_progress.nonGrowing)
    (seq_noAbort hsep' itemWord_noAbort)
    (I := fun s ws t => ∃ ps, ws = ps.map Prod.snd ∧ s = sepWords ps ++ t ∧
      ∀ p ∈ ps, isAlnum p.1 = false ∧ WordOf f p.2) ?_ ?_ h
  · intro s _
    exact ⟨[], rfl, rfl, by simp⟩
  · rintro s a r _ t hturn ⟨ps, rfl, rfl, hps⟩
    obtain ⟨_, r₁, _, h₁, h₂, rfl⟩ := seq_eq_ok hturn
    obtain ⟨c, rfl, hc, rfl⟩ := idSep_eq_ok k h₁
    obtain ⟨u, rfl, rfl, hu⟩ := itemWord_spec k h₂
    exact ⟨(c, u) :: ps, by simp, by simp [sepWords], List.forall_mem_cons.2 ⟨⟨hc, hu⟩, hps⟩⟩

/-- **The language of a list rule.** -/
theorem listId_iff (hf : ∀ x, f x = true → isAlnum x = true) (id : Str) (ws : List Str) :
    tryParse id (noSkip (listOf (item (lexeme (many1 (char f)))) idSep)) isSpace = (true, ws) ↔
      ListName f id ws := by
  constructor
  · intro h
    obtain ⟨t, hparse, hspace⟩ := tryParse_eq_true h
    obtain ⟨_, r, _, h₁, h₂, rfl⟩ := seq_eq_ok hparse
    obtain ⟨u, rfl, rfl, hu⟩ := itemWord_spec _ h₁
    obtain ⟨ps, rfl, rfl, hps⟩ := many_sepWord_spec _ h₂
    refine ⟨u, ps, t, rfl, rfl, ?_, fun p hp => (hps p hp).1, hspace⟩
    refine List.forall_mem_cons.2 ⟨hu, fun v hv => ?_⟩
    obtain ⟨p, hp, rfl⟩ := List.mem_map.1 hv
    exact (hps p hp).2
  · rintro ⟨w, ps, t, rfl, rfl, hws, hps, ht⟩
    refine tryParse_of_ok (t := t) ?_ ht
    have hfirst := itemWord_append ⟨isSpace, true⟩ (hws w List.mem_cons_self)
      (startsIn_of_imp hf (startsIn_sepWords hps ht))
    have hloop := many_sepWord ⟨isSpace, true⟩ hf ht ps fun p hp =>
      ⟨hps p hp, hws p.2 (List.mem_cons_of_mem _ (List.mem_map_of_mem hp))⟩
    rw [noSkip, listOf, seq_ok hfirst, hloop]
    rfl

end ListId

theorem lowerCaseId_iff (id : Str) (ws : List Str) :
    tryParse id lowerCaseId isSpace = (true, ws) ↔ ListName isLowerAlnum id ws := by
  unfold lowerCaseId lowerCase
  rw [lowerAlnum_eq]
  exact listId_iff (fun _ => isAlnum_of_isLowerAlnum) id ws

theorem upperCaseId_iff (id : Str) (ws : List Str) :
    tryParse id upperCaseId isSpace = (true, ws) ↔ ListName isUpperAlnum id ws := by
  unfold upperCaseId upperCase
  rw [upperAlnum_eq]
  exact listId_iff (fun _ => isAlnum_of_isUpperAlnum) id ws

/-! ## Camel-case words -/

theorem CamelWord.cases {w : Str} (h : CamelWord w) :
    ∃ c d r, w = c :: d :: r ∧ isUpper c = true ∧ ∀ x ∈ d :: r, isLowerAlnum x = true := by
  obtain ⟨hump, hself⟩ := h
  obtain ⟨c, d, r, rfl, hc, hr⟩ := hump.cases
  rw [toCamelCase_cons] at hself
  obtain ⟨hup, hlow⟩ := List.cons.inj hself
  refine ⟨c, d, r, rfl, ?_, ?_⟩
  · rw [← hup, isUpper_toUpper, hc]
  · rw [← hlow]
    exact isLowerAlnum_of_mem_lower hr

theorem itemCamelCase_append {w v : Str} (hw : CamelWord w)
    (hv : startsIn isLowerAlnum v = false) : item camelCase k.off (w ++ v) = .ok [w] v := by
  obtain ⟨c, d, r, rfl, hc, hlow⟩ := hw.cases
  have hr : ∀ y ∈ r, isLowerAlnum y = true := fun y hy => hlow y (List.mem_cons_of_mem _ hy)
  apply item_ok
  unfold camelCase
  rw [lowerAlnum_eq, lexeme_off, List.cons_append,
    seq_ok (show char isUpper k.off (c :: (d :: r ++ v)) = .ok [c] (d :: r ++ v) by
      rw [char_cons, if_pos hc]),
    List.cons_append, many1_char_cons _ k _ (hlow d List.mem_cons_self), takeWhile_run hr hv,
    dropWhile_run hr hv]
  rfl

theorem itemCamelCase_fail {s : Str} (hs : startsIn isUpper s = false) :
    item camelCase k.off s = .fail := by
  cases s with
  | nil => rfl
  | cons c s =>
    rw [startsIn_cons] at hs
    apply item_fail
    unfold camelCase
    rw [lexeme_off, seq_fail]
    rw [char_cons, hs]
    rfl

theorem startsIn_camelWords {ws : List Str} {t : Str} (hws : ∀ w ∈ ws, CamelWord w)
    (ht : startsIn isLowerAlnum t = false) : startsIn isLowerAlnum (ws.flatten ++ t) = false := by
  cases ws with
  | nil => exact ht
  | cons w ws =>
    obtain ⟨c, d, r, rfl, hc, -⟩ := (hws w List.mem_cons_self).cases
    exact isLowerAlnum_of_isUpper hc

/-- **The loop of camel-case words reads back its words.** -/
theorem many_camelCase {t : Str} (ht : ∀ x ∈ t, isAlnum x = false) (ws : List Str)
    (hws : ∀ w ∈ ws, CamelWord w) :
    many (item camelCase) k.off (ws.flatten ++ t) = .ok ws t := by
  have hlow : startsIn isLowerAlnum t = false :=
    startsIn_of_imp (fun _ => isAlnum_of_isLowerAlnum) (startsIn_of_forall ht)
  induction ws with
  | nil =>
    have hup : startsIn isUpper t = false :=
      startsIn_of_imp (fun _ => isAlnum_of_isUpper) (startsIn_of_forall ht)
    show many _ k.off t = _
    rw [many_eq camelCase_progress, itemCamelCase_fail k hup]
  | cons w ws ih =>
    have hws' : ∀ v ∈ ws, CamelWord v := fun v hv => hws v (List.mem_cons_of_mem _ hv)
    rw [List.flatten_cons, List.append_assoc, many_eq camelCase_progress,
      itemCamelCase_append k (hws w List.mem_cons_self) (startsIn_camelWords hws' hlow)]
    simp only [ih hws']
    rfl

/-- **The language of upper camel case.** -/
theorem upperCamelCaseId_iff (id : Str) (ws : List Str) :
    tryParse id upperCamelCaseId isSpace = (true, ws) ↔
      ws ≠ [] ∧ (∀ w ∈ ws, CamelWord w) ∧
        ∃ t, id = ws.flatten ++ t ∧ ∀ x ∈ t, isSpace x = true := by
  constructor
  · intro h
    obtain ⟨t, hparse, hspace⟩ := tryParse_eq_true h
    obtain ⟨_, r, vs, h₁, h₂, rfl⟩ := seq_eq_ok hparse
    obtain ⟨w, rfl, rfl, hw⟩ := itemCamelCase_spec _ h₁
    obtain ⟨rfl, hvs⟩ := many_camelCase_spec _ h₂
    exact ⟨by simp, List.forall_mem_cons.2 ⟨hw, hvs⟩, t, by simp, hspace⟩
  · rintro ⟨hne, hws, t, rfl, ht⟩
    have hsep : ∀ x ∈ t, isAlnum x = false := fun x hx => isAlnum_of_isSpace (ht x hx)
    refine tryParse_of_ok (t := t) ?_ ht
    obtain ⟨w, vs, rfl⟩ := List.exists_cons_of_ne_nil hne
    have hvs : ∀ v ∈ vs, CamelWord v := fun v hv => hws v (List.mem_cons_of_mem _ hv)
    have hlow : startsIn isLowerAlnum t = false :=
      startsIn_of_imp (fun _ => isAlnum_of_isLowerAlnum) (startsIn_of_forall hsep)
    rw [upperCamelCaseId, noSkip, many1, List.flatten_cons, List.append_assoc,
      seq_ok (itemCamelCase_append ⟨isSpace, true⟩ (hws w List.mem_cons_self)
        (startsIn_camelWords hvs hlow)), many_camelCase ⟨isSpace, true⟩ hsep vs hvs]
    rfl

/-- **The language of lower camel case.** -/
theorem lowerCamelCaseId_iff (id : Str) (ws : List Str) :
    tryParse id lowerCamelCaseId isSpace = (true, ws) ↔
      ∃ u vs t, ws = u :: vs ∧ WordOf isLowerAlnum u ∧ (∀ v ∈ vs, CamelWord v) ∧
        id = u ++ (vs.flatten ++ t) ∧ ∀ x ∈ t, isSpace x = true := by
  unfold lowerCamelCaseId lowerCase
  rw [lowerAlnum_eq]
  constructor
  · intro h
    obtain ⟨t, hparse, hspace⟩ := tryParse_eq_true h
    obtain ⟨_, r, vs, h₁, h₂, rfl⟩ := seq_eq_ok hparse
    obtain ⟨u, rfl, rfl, hu⟩ := itemWord_spec _ h₁
    obtain ⟨rfl, hvs⟩ := many_camelCase_spec _ (expect_eq_ok h₂)
    exact ⟨u, vs, t, rfl, hu, hvs, rfl, hspace⟩
  · rintro ⟨u, vs, t, rfl, hu, hvs, rfl, ht⟩
    have hsep : ∀ x ∈ t, isAlnum x = false := fun x hx => isAlnum_of_isSpace (ht x hx)
    have hlow : startsIn isLowerAlnum t = false :=
      startsIn_of_imp (fun _ => isAlnum_of_isLowerAlnum) (startsIn_of_forall hsep)
    refine tryParse_of_ok (t := t) ?_ ht
    rw [noSkip, seq_ok (itemWord_append ⟨isSpace, true⟩ hu (startsIn_camelWords hvs hlow)),
      expect_ok (many_camelCase ⟨isSpace, true⟩ hsep vs hvs)]
    rfl

/-- **The languages of the four rules**, with the words that each returns. -/
theorem styleGrammars_language (id : Str) (ws : List Str) :
    (tryParse id lowerCaseId isSpace = (true, ws) ↔ ListName isLowerAlnum id ws) ∧
    (tryParse id upperCaseId isSpace = (true, ws) ↔ ListName isUpperAlnum id ws) ∧
    (tryParse id upperCamelCaseId isSpace = (true, ws) ↔
      ws ≠ [] ∧ (∀ w ∈ ws, CamelWord w) ∧
        ∃ t, id = ws.flatten ++ t ∧ ∀ x ∈ t, isSpace x = true) ∧
    (tryParse id lowerCamelCaseId isSpace = (true, ws) ↔
      ∃ u vs t, ws = u :: vs ∧ WordOf isLowerAlnum u ∧ (∀ v ∈ vs, CamelWord v) ∧
        id = u ++ (vs.flatten ++ t) ∧ ∀ x ∈ t, isSpace x = true) :=
  ⟨lowerCaseId_iff id ws, upperCaseId_iff id ws, upperCamelCaseId_iff id ws,
    lowerCamelCaseId_iff id ws⟩

/-! ## Reading joined names -/

/-- Words behind copies of one separator. -/
theorem sepWords_eq (c : Byte) (w : Str) (ws : List Str) :
    [c].intercalate (w :: ws) = w ++ (sepWords (ws.map fun v => (c, v)) ++ []) := by
  induction ws generalizing w with
  | nil => simp [sepWords]
  | cons v ws ih =>
    rw [List.intercalate_cons_cons, ih]
    simp [sepWords]

/-- **Names with one separator are read back** by the list rule of their class. -/
theorem listName_intercalate {f : Byte → Bool} {c : Byte} (hc : isAlnum c = false) {ws : List Str}
    (hne : ws ≠ []) (hws : ∀ w ∈ ws, WordOf f w) : ListName f ([c].intercalate ws) ws := by
  obtain ⟨w, us, rfl⟩ := List.exists_cons_of_ne_nil hne
  refine ⟨w, us.map fun v => (c, v), [], ?_, sepWords_eq c w us, hws, ?_, by simp⟩
  · rw [List.map_map]
    exact congrArg (w :: ·) (List.map_id us).symm
  intro p hp
  obtain ⟨v, -, rfl⟩ := List.mem_map.1 hp
  exact hc

theorem camelWord_toCamelCase_iff (w : Str) : CamelWord (toCamelCase w) ↔ HumpWord w := by
  constructor
  · rintro ⟨⟨hstart, hlen, halnum⟩, -⟩
    have hlower := lower_toCamelCase w
    refine ⟨by rwa [startsIn_isAlpha_toCamelCase] at hstart, ?_,
      isAlnum_of_lower_eq hlower.symm halnum⟩
    rwa [← lower_length, hlower, lower_length] at hlen
  · intro h
    obtain ⟨c, d, r, rfl, hc, hr⟩ := h.cases
    have hlow := isLowerAlnum_of_mem_lower hr
    have hup : isUpper (toUpper c) = true := by rw [isUpper_toUpper, hc]
    rw [toCamelCase_cons]
    refine ⟨⟨?_, by simp [lower], ?_⟩, ?_⟩
    · rw [startsIn_cons, isAlpha, hup, Bool.true_or]
    · exact List.forall_mem_cons.2
        ⟨isAlnum_of_isUpper hup, fun x hx => isAlnum_of_isLowerAlnum (hlow x hx)⟩
    · rw [toCamelCase_cons_eq_self_iff]
      refine ⟨isLower_of_isUpper hup, List.any_eq_false.2 fun x hx => ?_⟩
      simp [isUpper_of_isLowerAlnum (hlow x hx)]

theorem camelWord_map_iff (ws : List Str) :
    (∀ v ∈ ws.map toCamelCase, CamelWord v) ↔ ∀ w ∈ ws, HumpWord w := by
  simp [camelWord_toCamelCase_iff]

/-- **Joined names are read back by the rule of their style.** -/
theorem styleGrammars_readBack (ws : List Str) (c : Byte) (hne : ws ≠ []) (hwne : ∀ w ∈ ws, w ≠ [])
    (halnum : ∀ w ∈ ws, ∀ x ∈ w, isAlnum x = true) (hc : isAlnum c = false) :
    tryParse (joinIdentifier ws ⟨.lowerCase, [c], [], []⟩) lowerCaseId isSpace =
      (true, ws.map lower) ∧
    tryParse (joinIdentifier ws ⟨.upperCase, [c], [], []⟩) upperCaseId isSpace =
      (true, ws.map upper) ∧
    (tryParse (joinIdentifier ws ⟨.upperCamelCase, [], [], []⟩) upperCamelCaseId isSpace =
      (true, ws.map toCamelCase) ↔ ∀ w ∈ ws, HumpWord w) ∧
    (tryParse (joinIdentifier ws ⟨.lowerCamelCase, [], [], []⟩) lowerCamelCaseId isSpace =
      (true, convertParts .lowerCamelCase 0 ws) ↔ ∀ w ∈ ws.tail, HumpWord w) := by
  have hsep : ∀ (cap : Capitalization) (f : Str → Str),
      (∀ w n, convertIdentifierPart w n cap = f w) →
      joinIdentifier ws ⟨cap, [c], [], []⟩ = [c].intercalate (ws.map f) := by
    intro cap f hf
    rw [← convertParts_eq_map hf 0 ws]
    simp [joinIdentifier]
  have hcamel : ∀ cap : Capitalization,
      joinIdentifier ws ⟨cap, [], [], []⟩ = (convertParts cap 0 ws).flatten ++ [] := fun cap => by
    rw [joinIdentifier_camelCase ws rfl rfl rfl, List.append_nil]
  refine ⟨?_, ?_, ?_, ?_⟩
  · rw [lowerCaseId_iff, hsep .lowerCase lower fun _ _ => rfl]
    refine listName_intercalate hc (by simpa using hne) fun v hv => ?_
    obtain ⟨w, hw, rfl⟩ := List.mem_map.1 hv
    exact ⟨by simpa [lower] using hwne w hw, isLowerAlnum_of_mem_lower (halnum w hw)⟩
  · rw [upperCaseId_iff, hsep .upperCase upper fun _ _ => rfl]
    refine listName_intercalate hc (by simpa using hne) fun v hv => ?_
    obtain ⟨w, hw, rfl⟩ := List.mem_map.1 hv
    refine ⟨by simpa [upper] using hwne w hw, fun x hx => ?_⟩
    obtain ⟨y, hy, rfl⟩ := List.mem_map.1 hx
    exact isUpperAlnum_toUpper (halnum w hw y hy)
  · rw [upperCamelCaseId_iff, hcamel, convertParts_eq_map (f := toCamelCase) fun _ _ => rfl,
      camelWord_map_iff]
    exact ⟨fun h => h.2.1, fun h => ⟨by simpa using hne, h, [], rfl, by simp⟩⟩
  · obtain ⟨w, us, rfl⟩ := List.exists_cons_of_ne_nil hne
    rw [lowerCamelCaseId_iff, hcamel, convertParts, convertParts_camelCase (.inr rfl),
      List.tail_cons, ← camelWord_map_iff]
    constructor
    · rintro ⟨u, vs, t, heq, -, hvs, -⟩
      rwa [(List.cons.inj heq).2]
    · intro hvs
      refine ⟨lower w, us.map toCamelCase, [], rfl, ⟨?_, ?_⟩, hvs, by simp [convertIdentifierPart],
        by simp⟩
      · simpa [lower] using hwne w List.mem_cons_self
      · exact isLowerAlnum_of_mem_lower (halnum w List.mem_cons_self)

theorem styleGrammars_readBack_2_aB :
    tryParse (joinIdentifier (["2", "aB"].map bytes) ⟨.lowerCase, bytes "-", [], []⟩) lowerCaseId
      isSpace = (true, (["2", "aB"].map bytes).map lower) ∧
    tryParse (joinIdentifier (["2", "aB"].map bytes) ⟨.upperCase, bytes "-", [], []⟩) upperCaseId
      isSpace = (true, (["2", "aB"].map bytes).map upper) ∧
    (tryParse (joinIdentifier (["2", "aB"].map bytes) ⟨.upperCamelCase, [], [], []⟩)
      upperCamelCaseId isSpace = (true, (["2", "aB"].map bytes).map toCamelCase) ↔
        ∀ w ∈ ["2", "aB"].map bytes, HumpWord w) ∧
    (tryParse (joinIdentifier (["2", "aB"].map bytes) ⟨.lowerCamelCase, [], [], []⟩)
      lowerCamelCaseId isSpace = (true, convertParts .lowerCamelCase 0 (["2", "aB"].map bytes)) ↔
        ∀ w ∈ (["2", "aB"].map bytes).tail, HumpWord w) :=
  styleGrammars_readBack (["2", "aB"].map bytes) 0x2D (by decide) (by decide) (by decide)
    (by decide)

end RefactorCpp

import RefactorCpp.NameStyle.Identifier
import RefactorCpp.NameStyle.Words

/-!
# The grammar computes the words

The parser rules of `namestyle.cpp` against the description of a word:

* `gid_cons`, `gid_fail` — `gid` recognises exactly the next hump;
* `firstId_spec`, `nthId_spec` — one word is read, and the words of the rest are untouched;
* `generalIdSeperator_spec` — the whole rule, which neither throws nor leaves anything over;
* `splitIdentifer_eq` — **`splitIdentifer` returns the words of every identifier that has an
  alphanumeric character**, and `splitIdentifer_eq_of_sep` the two remaining cases.
-/

set_option autoImplicit false

namespace RefactorCpp

open Peg Runs

variable (k : Context Byte)

/-! ## One word -/

theorem lowerAlnum_eq : lowerAlnum = char isLowerAlnum := alt_char isLower isDigit

/-- The element of the acronym rule: a digit, or a capital without a lower-case letter after
    it. -/
theorem acronymChar_eq (s : Str) :
    alt (seq (char isUpper) (notAt (char isLower))) (char isDigit) k.off s =
      match s with
      | [] => .fail
      | c :: r =>
        if isDigit c || (isUpper c && !startsIn isLower r) then .ok [c] r else .fail := by
  cases s with
  | nil => rfl
  | cons c r =>
    cases hu : isUpper c with
    | false => simp [alt, seq, char_cons, hu]
    | true =>
      have hd := isDigit_of_isUpper hu
      cases r with
      | nil => simp [alt, seq, char_cons, hu, notAt]
      | cons x r => cases hx : isLower x <;> simp [alt, seq, char_cons, hu, hd, notAt, hx]

theorem acronymChar_progress :
    Progress (alt (seq (char isUpper) (notAt (char isLower))) (char isDigit)) :=
  alt_progress (seq_progress (char_progress _) (notAt_nonGrowing _)) (char_progress _)

theorem many_acronymChar (s : Str) :
    many (alt (seq (char isUpper) (notAt (char isLower))) (char isDigit)) k.off s =
      .ok (spanAcronym s).1 (spanAcronym s).2 := by
  induction s with
  | nil => rw [many_eq acronymChar_progress, acronymChar_eq]; rfl
  | cons c r ih =>
    rw [many_eq acronymChar_progress, acronymChar_eq]
    simp only [spanAcronym]
    split <;> rename_i h
    · split at h
      · cases h
      · rename_i hc; simp [hc]
    · split at h <;> cases h
    · split at h
      · rename_i hc; cases h; simp [hc, ih]
      · cases h

/-- `gid` recognises the next hump. -/
theorem gid_cons {c : Byte} (hc : isAlnum c = true) (r : Str) :
    gid k.off (c :: r) = .ok (c :: (hump c r).1) (hump c r).2 := by
  unfold gid lowerCase camelCase gidUpperCase
  rw [lowerAlnum_eq]
  cases hu : isUpper c with
  | false =>
    -- a lower-case letter or a digit: the first alternative
    have hl : isLowerAlnum c = true := by
      rcases isAlnum_cases hc with h | h | h <;> simp_all [isLowerAlnum]
    have h : lexeme (many1 (char isLowerAlnum)) k.off (c :: r) =
        .ok (c :: r.takeWhile isLowerAlnum) (r.dropWhile isLowerAlnum) :=
      many1_char_cons isLowerAlnum k r hl
    rw [alt_ok (alt_ok h)]
    simp [hump, hu]
  | true =>
    have hl : isLowerAlnum c = false := isLowerAlnum_of_isUpper hu
    have hlow : lexeme (many1 (char isLowerAlnum)) k.off (c :: r) = .fail :=
      many1_char_fail isLowerAlnum k fun x t hx => by cases hx; exact hl
    cases hr : startsIn isLowerAlnum r with
    | true =>
      -- a capital with a lower-case letter or a digit after it: the second alternative
      obtain ⟨x, t, rfl, hx⟩ := exists_cons_of_startsIn hr
      have hcamel : lexeme (seq (char isUpper) (many1 (char isLowerAlnum))) k.off (c :: x :: t) =
          .ok (c :: x :: t.takeWhile isLowerAlnum) (t.dropWhile isLowerAlnum) := by
        simp [seq, char_cons, hu, many1_char_cons isLowerAlnum k t hx]
      rw [alt_ok ((alt_fail hlow).trans hcamel)]
      simp [hump, hx]
    | false =>
      -- a capital on its own or before another capital: the third alternative
      have hcamel : lexeme (seq (char isUpper) (many1 (char isLowerAlnum))) k.off (c :: r) =
          .fail := by
        have hfail : many1 (char isLowerAlnum) k.off r = .fail :=
          many1_char_fail isLowerAlnum k fun x t hx => by subst hx; exact hr
        simp [seq, char_cons, hu, hfail]
      have hnl : startsIn isLower r = false :=
        startsIn_of_imp (fun _ => isLowerAlnum_of_isLower) hr
      rw [alt_fail ((alt_fail hlow).trans hcamel)]
      simp [many1, seq, acronymChar_eq, many_acronymChar, hu, hnl, hump, hr]

theorem gid_fail {s : Str} (hs : startsIn isAlnum s = false) : gid k.off s = .fail := by
  cases s with
  | nil => rfl
  | cons c r =>
    obtain ⟨hu, hl, hd⟩ := not_isAlnum_iff.1 hs
    simp [gid, lowerCase, camelCase, gidUpperCase, lowerAlnum_eq, alt, many1, seq, char_cons,
      isLowerAlnum, hu, hl, hd]

/-! ## Reading word after word -/

/-- The words that are still to come after a word has been read. -/
def tailWords (s : Str) : List Str :=
  humps (s.takeWhile isAlnum) ++ words (s.dropWhile isAlnum)

theorem tailWords_append {u v : Str} (hu : ∀ x ∈ u, isAlnum x = true)
    (hv : startsIn isAlnum v = false) : tailWords (u ++ v) = humps u ++ words v := by
  rw [tailWords, takeWhile_run hu hv, dropWhile_run hu hv]

theorem tailWords_of_sep {s : Str} (hs : startsIn isAlnum s = false) : tailWords s = words s := by
  simpa using tailWords_append (u := []) (by simp) hs

theorem gid_spec {s : Str} (hs : startsIn isAlnum s = true) :
    ∃ w t, gid k.off s = .ok w t ∧ tailWords s = w :: tailWords t := by
  obtain ⟨u, v, rfl, hu, hv⟩ := run_split isAlnum s
  cases u with
  | nil => rw [List.nil_append, hv] at hs; cases hs
  | cons c r =>
    have hrest : ∀ x ∈ (hump c r).2, isAlnum x = true := by
      intro x hx
      refine hu x (List.mem_cons_of_mem _ ?_)
      rw [← hump_append c r]
      exact List.mem_append_right _ hx
    refine ⟨c :: (hump c r).1, (hump c r).2 ++ v, ?_, ?_⟩
    · rw [List.cons_append, gid_cons k hs, hump_local c hv]
    · rw [tailWords_append hu hv, tailWords_append hrest hv, humps_cons, List.cons_append]

theorem firstId_fail {s : Str} (hs : startsIn isAlnum s = false) : firstId k.off s = .fail := by
  have hd : many1 (char isDigit) k.off s = .fail := by
    apply many1_char_fail isDigit k
    rintro x r rfl
    exact (not_isAlnum_iff.1 hs).2.2
  rw [firstId, alt_fail (seq_fail hd), gid_fail k hs]

/-- The first word of a run takes the digits in front with it. -/
theorem firstId_spec {s : Str} (hs : startsIn isAlnum s = true) :
    ∃ w t, firstId k.off s = .ok w t ∧ words s = w :: tailWords t := by
  obtain ⟨u, v, rfl, hu, hv⟩ := run_split isAlnum s
  obtain ⟨ds, b, hdb, hds, hb⟩ := run_split isDigit u
  have hub : ∀ x ∈ b, isAlnum x = true := fun x hx => hu x (hdb ▸ List.mem_append_right _ hx)
  have hwords : words (u ++ v) = prependDigits ds (humps b) ++ words v := by
    rw [words_run_append hu hv, runWords, hdb, takeWhile_run hds hb, dropWhile_run hds hb]
  have hbv : startsIn isDigit (b ++ v) = false := by
    rw [startsIn_append (startsIn_of_imp (fun _ => isAlnum_of_isDigit) hv), hb]
  cases ds with
  | nil =>
    have hfail : many1 (char isDigit) k.off (u ++ v) = .fail := by
      apply many1_char_fail isDigit k
      intro x r hx
      rw [hdb, List.nil_append] at hx
      rw [hx] at hbv
      exact hbv
    obtain ⟨w, t, hw, ht⟩ := gid_spec k hs
    refine ⟨w, t, ?_, ?_⟩
    · rw [firstId, alt_fail (seq_fail hfail), hw]
    · rw [hwords, ← ht, tailWords_append hu hv, hdb, List.nil_append]
      cases humps b <;> rfl
  | cons d ds =>
    have hmany : many1 (char isDigit) k.off (u ++ v) = .ok (d :: ds) (b ++ v) := by
      have hds' : ∀ x ∈ ds, isDigit x = true := fun x hx => hds x (List.mem_cons_of_mem _ hx)
      rw [hdb, List.cons_append, List.cons_append, List.append_assoc,
        many1_char_cons isDigit k _ (hds d List.mem_cons_self), takeWhile_run hds' hbv,
        dropWhile_run hds' hbv]
    cases b with
    | nil =>
      refine ⟨d :: ds, v, ?_, ?_⟩
      · rw [firstId, alt_ok (r := v) (a := d :: ds)]
        rw [seq_ok hmany, List.nil_append, opt_fail (gid_fail k hv), prepend_ok, List.append_nil]
      · rw [hwords, tailWords_of_sep hv, humps_nil]
        rfl
    | cons x b =>
      obtain ⟨w, t, hw, ht⟩ := gid_spec k (s := x :: b ++ v) (hub x List.mem_cons_self)
      refine ⟨d :: ds ++ w, t, ?_, ?_⟩
      · rw [firstId, alt_ok (r := t) (a := d :: ds ++ w)]
        rw [seq_ok hmany, opt_ok hw, prepend_ok]
      · rw [tailWords_append hub hv, humps_cons, List.cons_append] at ht
        rw [hwords, humps_cons, prependDigits, List.cons_append]
        obtain ⟨hw', ht'⟩ := List.cons.inj ht
        rw [hw', ht']

/-- One turn of the word loop: a word is read, or only separators are left. -/
theorem nthId_spec (s : Str) :
    (∃ w t, nthId k.off s = .ok w t ∧ tailWords s = w :: tailWords t) ∨
    (nthId k.off s = .fail ∧ ∀ x ∈ s, isAlnum x = false) := by
  cases hs : startsIn isAlnum s with
  | true =>
    obtain ⟨w, t, hw, ht⟩ := gid_spec k hs
    exact .inl ⟨w, t, by rw [nthId, alt_ok hw], ht⟩
  | false =>
    rw [nthId, alt_fail (gid_fail k hs)]
    cases s with
    | nil => exact .inr ⟨rfl, by simp⟩
    | cons c r =>
      have hc : isSep c = true := isSep_eq_true_iff.2 hs
      have hseps : many1 (idSep : Parser Byte Byte) k.off (c :: r) = .ok [] (r.dropWhile isSep) :=
        many1_omitted_char_cons isSep k r hc
      rw [seq_ok hseps]
      have hsplit := (List.takeWhile_append_dropWhile (p := isSep) (l := r)).symm
      have hsep : ∀ x ∈ c :: r.takeWhile isSep, isAlnum x = false := by
        intro x hx
        rcases List.mem_cons.1 hx with rfl | hx
        · exact hs
        · exact not_isAlnum_of_mem_takeWhile x hx
      cases hrest : r.dropWhile isSep with
      | nil =>
        refine .inr ⟨by rw [firstId_fail k rfl]; rfl, ?_⟩
        rw [hrest, List.append_nil] at hsplit
        rw [hsplit]
        exact hsep
      | cons y t =>
        have hy : startsIn isAlnum (y :: t) = true := isAlnum_of_dropWhile hrest
        obtain ⟨w, t', hw, ht'⟩ := firstId_spec k hy
        refine .inl ⟨w, t', by rw [hw]; rfl, ?_⟩
        rw [tailWords_of_sep hs, ← ht', hsplit, hrest, ← List.cons_append, words_sep_append hsep]

/-! ## The whole rule -/

theorem gid_progress : Progress gid := by
  have hla : Progress lowerAlnum := alt_progress (char_progress _) (char_progress _)
  exact alt_progress
    (alt_progress (lexeme_progress (many1_progress hla))
      (lexeme_progress (seq_progress (char_progress _) (many1_progress hla).nonGrowing)))
    (lexeme_progress (many1_progress acronymChar_progress))

theorem firstId_progress : Progress firstId :=
  alt_progress
    (seq_progress (many1_progress (char_progress _)) (opt_nonGrowing gid_progress.nonGrowing))
    gid_progress

theorem nthId_progress : Progress nthId :=
  alt_progress gid_progress
    (seq_progress (many1_progress (omitted_progress (char_progress _)))
      firstId_progress.nonGrowing)

/-- The word loop reads every word that is still to come and stops at trailing separators. -/
theorem many_nthId (s : Str) :
    ∃ t, many (item nthId) k.off s = .ok (tailWords s) t ∧ ∀ x ∈ t, isAlnum x = false := by
  obtain ⟨ws, t, hrun, hws, ht⟩ := many_spec (c := k.off) (item_progress nthId_progress)
    (I := fun s ws t => ws = tailWords s ∧ ∀ x ∈ t, isAlnum x = false)
    (by
      intro s h
      rcases nthId_spec k s with ⟨w, t, hw, _⟩ | ⟨_, hsep⟩
      · rw [item_ok hw] at h; cases h
      · refine ⟨?_, hsep⟩
        have hs : startsIn isAlnum s = false := startsIn_of_forall hsep
        rw [tailWords_of_sep hs, words_of_sep hsep])
    (by
      intro s a r ws t h ⟨hws, ht⟩
      rcases nthId_spec k s with ⟨w, r', hw, hr⟩ | ⟨hfail, _⟩
      · rw [item_ok hw] at h
        cases h
        exact ⟨by rw [hr, hws]; rfl, ht⟩
      · rw [item_fail hfail] at h; cases h)
    (by
      intro s e h
      rcases nthId_spec k s with ⟨w, r', hw, _⟩ | ⟨hfail, _⟩
      · rw [item_ok hw] at h; cases h
      · rw [item_fail hfail] at h; cases h)
    s
  exact ⟨t, by rw [hrun, hws], ht⟩

theorem many_idSep (s : Str) :
    many (idSep : Parser Byte Str) k.off s = .ok [] (s.dropWhile isSep) :=
  many_omitted_char isSep k s

/-- **The rule reads an identifier to its end and yields its words.** -/
theorem generalIdSeperator_spec {id : Str} (h : ∃ x ∈ id, isAlnum x = true) :
    generalIdSeperator k id = .ok (words id) [] := by
  have hsplit := (List.takeWhile_append_dropWhile (p := isSep) (l := id)).symm
  have hsep : ∀ x ∈ id.takeWhile isSep, isAlnum x = false := not_isAlnum_of_mem_takeWhile
  have hstart : startsIn isAlnum (id.dropWhile isSep) = true := by
    cases hd : id.dropWhile isSep with
    | nil =>
      rw [hd, List.append_nil] at hsplit
      obtain ⟨x, hx, hax⟩ := h
      rw [hsplit] at hx
      rw [hsep x hx] at hax
      cases hax
    | cons y t => exact isAlnum_of_dropWhile hd
  obtain ⟨w, t, hw, hwords⟩ := firstId_spec k hstart
  obtain ⟨t', ht', hrest⟩ := many_nthId k t
  have hdrop : t'.dropWhile isSep = [] :=
    List.dropWhile_eq_nil_iff.2 fun x hx => isSep_eq_true_iff.2 (hrest x hx)
  have hall : words id = w :: tailWords t := by
    rw [← hwords, hsplit, words_sep_append hsep, ← hsplit]
  unfold generalIdSeperator noSkip
  rw [seq_ok (r := t') (a := words id) ?_, expect_ok (many_idSep k t'), hdrop, prepend_ok,
    List.append_nil]
  rw [seq_ok (r := t) (a := [w]) ?_, expect_ok ht', prepend_ok, hall, List.singleton_append]
  rw [seq_ok (many_idSep k id), expect_ok (item_ok hw), prepend_ok, List.nil_append]

/-- Without an alphanumeric character the required first word is missing. -/
theorem generalIdSeperator_abort {id : Str} (h : ∀ x ∈ id, isAlnum x = false) :
    generalIdSeperator k id = .abort .expectation := by
  have hdrop : id.dropWhile isSep = [] :=
    List.dropWhile_eq_nil_iff.2 fun x hx => isSep_eq_true_iff.2 (h x hx)
  have hfirst : item firstId k.off ([] : Str) = .fail := item_fail (firstId_fail k rfl)
  simp [generalIdSeperator, noSkip, seq, many_idSep, hdrop, expect_fail hfirst, Outcome.andThen]

/-! ## The refinement -/

theorem tryParse_generalIdSeperator {id : Str} (h : ∃ x ∈ id, isAlnum x = true) :
    tryParse id generalIdSeperator isSpace = (true, words id) := by
  simp [tryParse, phraseParse, generalIdSeperator_spec _ h]

/-- **`splitIdentifer` returns the words of the identifier**, and sets the flag. -/
theorem splitIdentifer_eq {id : Str} (h : ∃ x ∈ id, isAlnum x = true) (ok : Option Bool) :
    splitIdentifer id ok = (words id, ok.map fun _ => true) := by
  unfold splitIdentifer
  split
  · obtain ⟨x, hx, _⟩ := h; cases hx
  · rename_i c
    -- one byte: the special case agrees with the grammar
    obtain ⟨x, hx, hax⟩ := h
    obtain rfl := List.mem_singleton.1 hx
    have hword : IsWord [x] := by
      cases hd : isDigit x with
      | true => exact .digits (by simp) (by simpa using hd)
      | false =>
        have hx' : isAlpha x = true := isAlpha_of_isAlnum hax hd
        exact @IsWord.body [] _ (by simp) (.humped hx' (by simp))
    rw [words_of_isWord hword, escapeIdentifierChar, if_pos hax]
  · rw [tryParse_generalIdSeperator h]

/-- An identifier with words is split into them. -/
theorem splitIdentifer_of_words {id : Str} {ws : List Str} (h : words id = ws) (hne : ws ≠ [])
    (ok : Option Bool) : splitIdentifer id ok = (ws, ok.map fun _ => true) := by
  have hany : ∃ x ∈ id, isAlnum x = true := by
    apply exists_isAlnum_of_words
    rwa [h]
  rw [splitIdentifer_eq hany, h]

theorem splitIdentifer_eq_of_sep {id : Str} (h : ∀ x ∈ id, isAlnum x = false)
    (hlen : 2 ≤ id.length) (ok : Option Bool) :
    splitIdentifer id ok = ([id], ok.map fun _ => false) := by
  have hfail : tryParse id generalIdSeperator isSpace = (false, []) := by
    simp [tryParse, phraseParse, generalIdSeperator_abort _ h]
  unfold splitIdentifer
  split
  · simp at hlen
  · simp at hlen
  · rw [hfail]
    simp

end RefactorCpp

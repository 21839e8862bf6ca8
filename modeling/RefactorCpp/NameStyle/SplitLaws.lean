import RefactorCpp.NameStyle.Refinement

/-!
# Laws of `splitIdentifer`

For every identifier with an alphanumeric character:

* `splitIdentifer_lossless` — no word is empty, the words in order are the alphanumeric
  characters of the identifier, and characters on two sides of a separator are in different
  words;
* `splitIdentifer_append_seps` — a text of separators splits the work in two;
* `splitIdentifer_casePattern` — every word has one letter-case pattern.

For every identifier:

* `splitIdentifer_flag` — the flag is cleared exactly by two or more bytes without an alphanumeric
  one, and the words do not depend on the flag.
-/

set_option autoImplicit false

namespace RefactorCpp

open Runs

/-! ## Positions -/

/-- The number of alphanumeric characters before position `i`: where the character at `i` is
    found in the concatenated words. -/
def alnumRank (id : Str) (i : Nat) : Nat := ((id.take i).filter isAlnum).length

theorem alnumRank_mono (id : Str) {i j : Nat} (h : i ≤ j) : alnumRank id i ≤ alnumRank id j :=
  ((List.take_sublist_take_left h).filter isAlnum).length_le

theorem alnumRank_succ {id : Str} {i : Nat} {x : Byte} (hi : id[i]? = some x)
    (hx : isAlnum x = true) : alnumRank id (i + 1) = alnumRank id i + 1 := by
  simp [alnumRank, List.take_add_one, hi, List.filter_append, hx]

/-- A separator in between puts two characters into different words. -/
theorem words_separate {id : Str} {i m j : Nat} {x z : Byte} (him : i < m) (hmj : m < j)
    (hi : id[i]? = some x) (hm : id[m]? = some z) (hx : isAlnum x = true)
    (hz : isAlnum z = false) :
    blockIndex (words id) (alnumRank id i) < blockIndex (words id) (alnumRank id j) := by
  have hcut : id = id.take m ++ z :: id.drop (m + 1) := by
    obtain ⟨hlt, hget⟩ := List.getElem?_eq_some_iff.1 hm
    rw [← hget, ← List.drop_eq_getElem_cons hlt, List.take_append_drop]
  have hwords : words id = words (id.take m) ++ words (id.drop (m + 1)) := by
    rw [← words_append_sep _ _ hz, ← hcut]
  have hlen : (words (id.take m)).flatten.length = alnumRank id m := by
    rw [words_flatten, alnumRank]
  rw [hwords]
  apply blockIndex_lt_of_cut
  · have := alnumRank_mono id (show i + 1 ≤ m by omega)
    rw [alnumRank_succ hi hx] at this
    omega
  · rw [hlen]
    exact alnumRank_mono id (by omega)

/-- **Nothing is lost, repeated, reordered or glued across a separator.** -/
theorem splitIdentifer_lossless (id : Str) (ok : Option Bool) (h : ∃ x ∈ id, isAlnum x = true) :
    (∀ w ∈ (splitIdentifer id ok).1, w ≠ []) ∧
    (splitIdentifer id ok).1.flatten = id.filter isAlnum ∧
    ∀ (i m j : Nat) (x z y : Byte), i < m → m < j → id[i]? = some x → id[m]? = some z →
      id[j]? = some y → isAlnum x = true → isAlnum z = false → isAlnum y = true →
      blockIndex (splitIdentifer id ok).1 (alnumRank id i) ≠
        blockIndex (splitIdentifer id ok).1 (alnumRank id j) := by
  rw [splitIdentifer_eq h ok]
  refine ⟨fun w hw => (words_isWord id w hw).ne_nil, words_flatten id, ?_⟩
  intro i m j x z y him hmj hi hm hj hx hz hy
  exact Nat.ne_of_lt (words_separate him hmj hi hm hx hz)

theorem splitIdentifer_lossless_a_2B :
    (∀ w ∈ (splitIdentifer (bytes "a__2B") none).1, w ≠ []) ∧
    (splitIdentifer (bytes "a__2B") none).1.flatten = bytes "a2B" ∧
    blockIndex (splitIdentifer (bytes "a__2B") none).1 0 ≠
      blockIndex (splitIdentifer (bytes "a__2B") none).1 1 := by
  obtain ⟨hne, hflat, hsep⟩ := splitIdentifer_lossless (bytes "a__2B") none ⟨0x61, by decide⟩
  refine ⟨hne, hflat, ?_⟩
  exact hsep 0 2 3 0x61 0x5F 0x32 (by decide) (by decide) rfl rfl rfl rfl rfl rfl

/-! ## Separators -/

/-- **Splitting is a homomorphism over separators**, whichever and however many they are. -/
theorem splitIdentifer_append_seps (a b s : Str) (ok : Option Bool)
    (ha : ∃ x ∈ a, isAlnum x = true) (hb : ∃ x ∈ b, isAlnum x = true) (hne : s ≠ [])
    (hs : ∀ x ∈ s, isAlnum x = false) :
    splitIdentifer (a ++ s ++ b) ok =
      ((splitIdentifer a none).1 ++ (splitIdentifer b none).1, ok.map fun _ => true) := by
  have hab : ∃ x ∈ a ++ s ++ b, isAlnum x = true := by
    obtain ⟨x, hx, hax⟩ := ha
    exact ⟨x, List.mem_append_left _ (List.mem_append_left _ hx), hax⟩
  rw [splitIdentifer_eq hab, splitIdentifer_eq ha, splitIdentifer_eq hb,
    words_append_seps a b hne hs]

theorem splitIdentifer_append_seps_myA_2 :
    splitIdentifer (bytes "_myA" ++ bytes "_-" ++ bytes "2") (some false) =
      ((splitIdentifer (bytes "_myA") none).1 ++ (splitIdentifer (bytes "2") none).1,
        some true) :=
  splitIdentifer_append_seps _ _ _ _ ⟨0x6D, by decide⟩ ⟨0x32, by decide⟩ (by decide) (by decide)

/-! ## Letter case -/

/-- After its leading digits a word is empty, or lower-case letters and digits, or one capital
    followed by these, or capitals and digits. -/
def CasePattern (w : Str) : Prop :=
  w.dropWhile isDigit = [] ∨
  (∀ x ∈ w.dropWhile isDigit, isLower x = true ∨ isDigit x = true) ∨
  (∃ c r, w.dropWhile isDigit = c :: r ∧ isUpper c = true ∧
    ∀ x ∈ r, isLower x = true ∨ isDigit x = true) ∨
  (∀ x ∈ w.dropWhile isDigit, isUpper x = true ∨ isDigit x = true)

theorem Body.cases {b : Str} (h : Body b) :
    (∀ x ∈ b, isLowerAlnum x = true) ∨
    (∃ c r, b = c :: r ∧ isUpper c = true ∧ ∀ x ∈ r, isLowerAlnum x = true) ∨
    (∀ x ∈ b, isUpperAlnum x = true) := by
  cases h with
  | @humped c r hc hr =>
    rcases Bool.or_eq_true_iff.1 hc with hc | hc
    · exact .inr (.inl ⟨c, r, rfl, hc, hr⟩)
    · left
      intro x hx
      rcases List.mem_cons.1 hx with rfl | hx
      · exact isLowerAlnum_of_isLower hc
      · exact hr x hx
  | acronym hc hd hr =>
    refine .inr (.inr fun x hx => ?_)
    simp only [List.mem_cons] at hx
    rcases hx with rfl | rfl | hx
    · exact isUpperAlnum_of_isUpper hc
    · exact isUpperAlnum_of_isUpper hd
    · exact hr x hx

theorem IsWord.casePattern {w : Str} (h : IsWord w) : CasePattern w := by
  cases h with
  | digits hne hds => exact .inl (List.dropWhile_eq_nil_iff.2 hds)
  | @body ds b hds hb =>
    have hdrop : (ds ++ b).dropWhile isDigit = b := dropWhile_run hds (startsIn_isDigit_of_body hb)
    unfold CasePattern
    rw [hdrop]
    rcases hb.cases with hl | ⟨c, r, hcr, hc, hr⟩ | hu
    · exact .inr (.inl fun x hx => Bool.or_eq_true_iff.1 (hl x hx))
    · exact .inr (.inr (.inl ⟨c, r, hcr, hc, fun x hx => Bool.or_eq_true_iff.1 (hr x hx)⟩))
    · exact .inr (.inr (.inr fun x hx => Bool.or_eq_true_iff.1 (hu x hx)))

/-- A word has no lower-case letter, or it is cut into a part with at most one capital and no
    lower-case letter and a part without capitals. -/
theorem IsWord.hump {w : Str} (h : IsWord w) :
    (∀ x ∈ w, isLower x = false) ∨
    ∃ u r, w = u ++ r ∧ u.countP isUpper ≤ 1 ∧ (∀ x ∈ u, isLower x = false) ∧
      ∀ x ∈ r, isUpper x = false := by
  cases h with
  | digits hne hds => exact .inl fun x hx => isLower_of_isDigit (hds x hx)
  | @body ds b hds hb =>
    have hlow : ∀ x ∈ ds, isLower x = false := fun x hx => isLower_of_isDigit (hds x hx)
    have hcount : ds.countP isUpper = 0 :=
      List.countP_eq_zero.2 fun x hx => by simp [isUpper_of_isDigit (hds x hx)]
    rcases hb.cases with hl | ⟨c, r, rfl, hc, hr⟩ | hu
    · exact .inr ⟨ds, b, rfl, by omega, hlow, fun x hx => isUpper_of_isLowerAlnum (hl x hx)⟩
    · refine .inr ⟨ds ++ [c], r, by simp, ?_, ?_, fun x hx => isUpper_of_isLowerAlnum (hr x hx)⟩
      · rw [List.countP_append, hcount, List.countP_singleton, if_pos hc]
      · intro x hx
        rcases List.mem_append.1 hx with hx | hx
        · exact hlow x hx
        · rw [List.mem_singleton.1 hx]
          exact isLower_of_isUpper hc
    · left
      intro x hx
      rcases List.mem_append.1 hx with hx | hx
      · exact hlow x hx
      · exact isLower_of_isUpperAlnum (hu x hx)

/-- No lower-case letter stands before a capital. -/
theorem IsWord.lower_before_upper {w : Str} (h : IsWord w) :
    w.Pairwise fun x y => ¬ (isLower x = true ∧ isUpper y = true) := by
  -- a part without lower-case letters has nothing on the left of such a pair
  have hleft : ∀ {u v : Str}, (∀ x ∈ u, isLower x = false) →
      ∀ x ∈ u, ∀ y ∈ v, ¬ (isLower x = true ∧ isUpper y = true) := by
    rintro u v hu x hx y _ ⟨hlx, _⟩
    rw [hu x hx] at hlx
    cases hlx
  rcases h.hump with hl | ⟨u, r, rfl, _, hu, hr⟩
  · exact List.pairwise_of_forall_mem_list (hleft hl)
  · rw [List.pairwise_append]
    refine ⟨List.pairwise_of_forall_mem_list (hleft hu), ?_, hleft hu⟩
    apply List.pairwise_of_forall_mem_list
    rintro x _ y hy ⟨_, huy⟩
    rw [hr y hy] at huy
    cases huy

/-- A word with a lower-case letter has at most one capital. -/
theorem IsWord.countP_isUpper {w : Str} (h : IsWord w) (hl : ∃ x ∈ w, isLower x = true) :
    w.countP isUpper ≤ 1 := by
  rcases h.hump with hno | ⟨u, r, rfl, hcount, _, hr⟩
  · obtain ⟨x, hx, hlx⟩ := hl
    rw [hno x hx] at hlx
    cases hlx
  · have hzero : r.countP isUpper = 0 := List.countP_eq_zero.2 fun x hx => by simp [hr x hx]
    rw [List.countP_append, hzero]
    exact hcount

/-- **Every word has one letter-case pattern**, so every hump is cut. -/
theorem splitIdentifer_casePattern (id : Str) (ok : Option Bool) (h : ∃ x ∈ id, isAlnum x = true) :
    ∀ w ∈ (splitIdentifer id ok).1,
      CasePattern w ∧
      (w.Pairwise fun x y => ¬ (isLower x = true ∧ isUpper y = true)) ∧
      ((∃ x ∈ w, isLower x = true) → w.countP isUpper ≤ 1) := by
  rw [splitIdentifer_eq h ok]
  intro w hw
  have hword := words_isWord id w hw
  exact ⟨hword.casePattern, hword.lower_before_upper, hword.countP_isUpper⟩

theorem splitIdentifer_casePattern_HTTPServer :
    CasePattern (bytes "Server") ∧
    ((bytes "Server").Pairwise fun x y => ¬ (isLower x = true ∧ isUpper y = true)) ∧
    ((∃ x ∈ bytes "Server", isLower x = true) → (bytes "Server").countP isUpper ≤ 1) :=
  splitIdentifer_casePattern (bytes "HTTPServer") none ⟨0x48, by decide⟩ _ (by decide)

example : splitIdentifer (bytes "HTTPServer") none = (["HTTP", "Server"].map bytes, none) := by
  decide

/-! ## The flag -/

/-- Too long for the special cases, and nothing for the grammar to read. -/
def Unsplittable (id : Str) : Prop := 2 ≤ id.length ∧ ∀ x ∈ id, isAlnum x = false

theorem splitIdentifer_of_unsplittable {id : Str} (h : Unsplittable id) (ok : Option Bool) :
    splitIdentifer id ok = ([id], ok.map fun _ => false) :=
  splitIdentifer_eq_of_sep h.2 h.1 ok

/-- Every other identifier is split, by the grammar or by one of the special cases. -/
theorem splitIdentifer_of_splittable {id : Str} (h : ¬ Unsplittable id) (ok : Option Bool) :
    splitIdentifer id ok = ((splitIdentifer id none).1, ok.map fun _ => true) := by
  by_cases halnum : ∃ x ∈ id, isAlnum x = true
  · rw [splitIdentifer_eq halnum, splitIdentifer_eq halnum]
  · have hsep := not_exists_isAlnum.1 halnum
    match id with
    | [] => rfl
    | [c] => rfl
    | c :: d :: r => exact absurd ⟨by simp, hsep⟩ h

/-- **The flag is exact, and a failed split leaves the name whole.** -/
theorem splitIdentifer_flag (id : Str) (b : Bool) :
    ((splitIdentifer id (some b)).2 = some false ↔
      2 ≤ id.length ∧ ∀ x ∈ id, isAlnum x = false) ∧
    ((splitIdentifer id (some b)).2 = some false ∨ (splitIdentifer id (some b)).2 = some true) ∧
    ((2 ≤ id.length ∧ ∀ x ∈ id, isAlnum x = false) → (splitIdentifer id (some b)).1 = [id]) ∧
    (splitIdentifer id none).1 = (splitIdentifer id (some b)).1 := by
  by_cases h : Unsplittable id
  · rw [splitIdentifer_of_unsplittable h (some b), splitIdentifer_of_unsplittable h none]
    exact ⟨iff_of_true rfl h, .inl rfl, fun _ => rfl, rfl⟩
  · rw [splitIdentifer_of_splittable h (some b)]
    refine ⟨iff_of_false ?_ h, .inr rfl, fun hno => absurd hno h, rfl⟩
    simp

end RefactorCpp

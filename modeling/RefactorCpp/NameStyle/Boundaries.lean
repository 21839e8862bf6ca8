import RefactorCpp.NameStyle.UpperCase

/-!
# Where words begin

The splitter is a nest of greedy loops with ordered choice.  Which of two neighbours it cuts
apart can nevertheless be read off the text before the second one and the character after it.

* `BeginsWord` — the condition: `y` is a letter, not everything since the last separator is
  digits, and either `y` is a capital that does not continue an acronym or has a lower-case
  letter behind it, or `y` is a lower-case letter behind an acronym that ends in a digit.
* `cutAt_humps`, `cutAt_runWords`, `cutAt_words` — the same place in a run of humps, in a run and
  in the whole text.
* `splitIdentifer_cut_iff` — **a word begins between two neighbours exactly there.**
-/

set_option autoImplicit false

namespace RefactorCpp

open Runs

/-- Nothing but digits since the last separator. -/
def DigitsOnly (p : Str) : Prop := ∀ c ∈ p.rtakeWhile isAlnum, isDigit c = true

/-- The character `y` after the text `p` and before the text `b` is the first one of a word,
    although no separator is in front of it. -/
def BeginsWord (p : Str) (y : Byte) (b : Str) : Prop :=
  ¬ DigitsOnly p ∧
  ((isUpper y = true ∧ (startsIn isLower b = true ∨ NoAcronym (capitalRun p ++ [y]))) ∨
    (isLower y = true ∧ ¬ NoAcronym (capitalRun p) ∧ ∃ d ∈ p.getLast?, isDigit d = true))

/-! ## Nothing but digits -/

theorem alnumRun_append (p : Str) {s : Str} (hs : ∀ x ∈ s, isAlnum x = true) :
    (p ++ s).rtakeWhile isAlnum = p.rtakeWhile isAlnum ++ s := by
  have hrev : ∀ x ∈ s.reverse, isAlnum x = true := fun x hx => hs x (List.mem_reverse.1 hx)
  simp only [List.rtakeWhile, List.reverse_append, List.takeWhile_append_of_pos hrev,
    List.reverse_reverse]

theorem DigitsOnly.of_digits {p ds : Str} (hp : AtRunStart p)
    (hds : ∀ x ∈ ds, isDigit x = true) : DigitsOnly (p ++ ds) := by
  have hrun : p.rtakeWhile isAlnum = [] := by
    rcases List.eq_nil_or_concat p with rfl | ⟨q, z, rfl⟩
    · rfl
    · rw [List.concat_eq_append] at hp ⊢
      rw [List.rtakeWhile_concat_neg _ _ z (by simp [hp z (by simp)])]
  rw [DigitsOnly, alnumRun_append p fun x hx => isAlnum_of_isDigit (hds x hx), hrun]
  exact hds

/-- A letter in the run is not a digit. -/
theorem not_digitsOnly (p : Str) {c : Byte} {s : Str} (hc : isAlpha c = true)
    (hs : ∀ x ∈ s, isAlnum x = true) : ¬ DigitsOnly (p ++ c :: s) := by
  intro h
  rw [DigitsOnly, alnumRun_append p
    (List.forall_mem_cons.2 ⟨isAlnum_of_isAlpha hc, hs⟩)] at h
  have hd := h c (by simp)
  rw [isDigit_of_isAlpha hc] at hd
  cases hd

/-! ## One hump -/

/-- With more than digits in front, the look-back facts of a hump say that a word begins. -/
theorem beginsWord_iff {p : Str} {y : Byte} {b : Str} (hp : ¬ DigitsOnly p) :
    BeginsWord p y b ↔ isAlpha y = true ∧ HumpStart p y b := by
  constructor
  · rintro ⟨-, ⟨hu, h⟩ | ⟨hl, h⟩⟩
    · refine ⟨by simp [isAlpha, hu], fun hl => ?_, fun _ hb => ?_⟩
      · rw [isLower_of_isUpper hu] at hl; cases hl
      · exact h.resolve_left (by simp [hb])
    · refine ⟨by simp [isAlpha, hl], fun _ => .inr ⟨hl, .inr h⟩, fun hu => ?_⟩
      rw [isLower_of_isUpper hu] at hl; cases hl
  · rintro ⟨hy, h⟩
    refine ⟨hp, ?_⟩
    rcases Bool.or_eq_true_iff.1 hy with hu | hl
    · cases hb : startsIn isLower b with
      | true => exact .inl ⟨hu, .inl rfl⟩
      | false => exact .inl ⟨hu, .inr (h.upper hu hb)⟩
    · rcases h.lower hl with ⟨hu, -⟩ | ⟨-, ⟨hdig, hstart⟩ | hacr⟩
      · rw [isLower_of_isUpper hu] at hl; cases hl
      · -- only digits in front after all
        have hcut : p.rdropWhile isUpperAlnum ++ capitalRun p = p :=
          List.rdropWhile_append_rtakeWhile
        have honly := DigitsOnly.of_digits hstart hdig
        rw [hcut] at honly
        exact absurd honly hp
      · exact .inr ⟨hl, hacr⟩

/-- No capital of an acronym has a lower-case letter behind it. -/
theorem spanAcronym_capital {s a e : Str} {y : Byte} (h : (spanAcronym s).1 = a ++ y :: e)
    (hy : isUpper y = true) : startsIn isLower (e ++ (spanAcronym s).2) = false := by
  induction s generalizing a with
  | nil => simp [spanAcronym] at h
  | cons c r ih =>
    unfold spanAcronym at h ⊢
    split at h
    · rename_i hc
      rw [if_pos hc]
      cases a with
      | nil =>
        obtain ⟨rfl, rfl⟩ := List.cons.inj h
        rw [spanAcronym_append]
        simpa [hy, isDigit_of_isUpper hy] using hc
      | cons d a => exact ih (List.cons.inj h).2
    · simp at h

theorem hump_capital {c y : Byte} {r a e : Str} (h : (hump c r).1 = a ++ y :: e)
    (hy : isUpper y = true) : startsIn isLower (e ++ (hump c r).2) = false := by
  rcases hump_cases c r with ⟨hlow, -⟩ | ⟨-, -, hspan⟩
  · have hyl := isUpper_of_isLowerAlnum (hlow y (by simp [h]))
    rw [hy] at hyl
    cases hyl
  · rw [hspan] at h ⊢
    exact spanAcronym_capital h hy

/-- **Inside of a hump** the look-back facts do not hold. -/
theorem HumpStart.not_inside {p : Str} {c y : Byte} {r a e : Str} (h : HumpStart p c r)
    (hc : isAlpha c = true) (hsplit : (hump c r).1 = a ++ y :: e) (hy : isAlpha y = true) :
    ¬ HumpStart (p ++ c :: a) y (e ++ (hump c r).2) := by
  intro hin
  apply h.not_opensWord hc hy hsplit
  rcases Bool.or_eq_true_iff.1 hy with hu | hl
  · exact .inl ⟨hu, hin.upper hu (hump_capital hsplit hu)⟩
  · exact hin.lower hl

/-! ## Humps, runs and the whole text -/

/-- The cuts between the humps of the rest of a run; induction on the humps. -/
theorem cutAt_humps (s : Str) : ∀ p : Str, (∀ x ∈ s, isAlnum x = true) →
    (∀ c r, s = c :: r → isAlpha c = true ∧ HumpStart p c r) →
    ∀ (a b : Str) (y : Byte), s = a ++ y :: b →
      (CutAt (humps s) a ↔ isAlpha y = true ∧ HumpStart (p ++ a) y b) := by
  fun_induction humps s with
  | case1 => intro p _ _ a b y heq; simp at heq
  | case2 c r ih =>
    intro p halnum hs a b y heq
    obtain ⟨hc, hstart⟩ := hs c r rfl
    have happ := hump_append c r
    have hrest : ∀ x ∈ (hump c r).2, isAlnum x = true := fun x hx =>
      halnum x (List.mem_cons_of_mem _ (happ ▸ List.mem_append_right _ hx))
    have hnext : ∀ c' r', (hump c r).2 = c' :: r' →
        isAlpha c' = true ∧ HumpStart (p ++ c :: (hump c r).1) c' r' := fun c' r' h => by
      have hd := hump_stop c r
      rw [h] at hd hrest
      exact ⟨isAlpha_of_isAlnum (hrest c' List.mem_cons_self) hd, hstart.next hc h⟩
    have hrec := ih (p ++ c :: (hump c r).1) hrest hnext
    cases a with
    | nil =>
      obtain ⟨rfl, rfl⟩ := List.cons.inj heq
      rw [List.append_nil]
      exact iff_of_true (.nil _) ⟨hc, hstart⟩
    | cons d a =>
      obtain ⟨rfl, htail⟩ := List.cons.inj heq
      have hcut : (hump c r).1 ++ (hump c r).2 = a ++ y :: b := happ.trans htail
      rcases append_eq_cons hcut with ⟨a', rfl, hr⟩ | ⟨e, ha, rfl⟩
      · rw [← List.cons_append, CutAt.cons_iff, hrec a' b y hr, List.append_assoc]
      · refine iff_of_false ?_ fun hy => hstart.not_inside hc ha hy.1 hy.2
        rw [ha, ← List.cons_append]
        exact CutAt.not_inside (by simp) (by simp)

/-- The cuts between the words of a run; the digits in front join the first hump. -/
theorem cutAt_runWords {p u a b : Str} {y : Byte} (hp : AtRunStart p)
    (hu : ∀ x ∈ u, isAlnum x = true) (heq : u = a ++ y :: b) (hne : a ≠ []) :
    CutAt (runWords u) a ↔ BeginsWord (p ++ a) y b := by
  obtain ⟨ds, t, rfl, hds, ht⟩ := run_split isDigit u
  have htalnum : ∀ x ∈ t, isAlnum x = true := fun x hx => hu x (List.mem_append_right _ hx)
  have hhumps := cutAt_humps t (p ++ ds) htalnum fun c r h => by
    subst h
    exact ⟨isAlpha_of_isAlnum (htalnum c List.mem_cons_self) ht, .first hp hds c r⟩
  rw [runWords, takeWhile_run hds ht, dropWhile_run hds ht]
  rcases append_eq_cons heq with ⟨a', rfl, rfl⟩ | ⟨e, rfl, rfl⟩
  · -- behind the digits in front
    cases a' with
    | nil =>
      rw [List.append_nil] at hne ⊢
      refine iff_of_false ?_ fun h => h.1 (.of_digits hp hds)
      rw [List.nil_append, humps_cons, prependDigits]
      exact CutAt.not_inside hne (by simp)
    | cons c a' =>
      have hc : isAlpha c = true := isAlpha_of_isAlnum (htalnum c (by simp)) ht
      have hp' : ¬ DigitsOnly (p ++ (ds ++ c :: a')) := by
        rw [← List.append_assoc]
        exact not_digitsOnly _ hc fun x hx => htalnum x (by simp [hx])
      have hrec := hhumps (c :: a') b y rfl
      rw [beginsWord_iff hp', ← List.append_assoc, ← hrec, List.cons_append, humps_cons,
        prependDigits]
      exact CutAt.extend_iff (by simp)
  · -- among the digits
    have hy : isDigit y = true := hds y (by simp)
    refine iff_of_false ?_ fun h => ?_
    · cases humps t with
      | nil =>
        rw [prependDigits, if_neg (by simp)]
        exact CutAt.not_inside hne (by simp)
      | cons w ws =>
        rw [prependDigits, List.append_assoc]
        exact CutAt.not_inside hne (by simp)
    · rcases h.2 with ⟨hu, -⟩ | ⟨hl, -⟩
      · rw [isUpper_of_isDigit hy] at hu; cases hu
      · rw [isLower_of_isDigit hy] at hl; cases hl

/-- The cuts between two neighbours of a text; induction on the runs. -/
theorem cutAt_words (s : Str) : ∀ p : Str, (startsIn isAlnum s = true → AtRunStart p) →
    ∀ (a b : Str) (x y : Byte), s = a ++ x :: y :: b → isAlnum x = true → isAlnum y = true →
      (CutAt (words s) ((a ++ [x]).filter isAlnum) ↔ BeginsWord (p ++ (a ++ [x])) y b) := by
  induction s using runs_induction with
  | hnil => intro p _ a b x y heq; simp at heq
  | hrun u v hne hu hv ih =>
    intro p hp a b x y heq hx hy
    obtain ⟨c, t, rfl⟩ := List.exists_cons_of_ne_nil hne
    have hp' : AtRunStart p := hp (hu c List.mem_cons_self)
    rw [words_run_append hu hv]
    rcases append_eq_pair heq with ⟨a', rfl, hrest⟩ | ⟨-, rfl⟩ | ⟨q, hq, rfl⟩
    · have hflat : (c :: t ++ a' ++ [x]).filter isAlnum =
          (runWords (c :: t)).flatten ++ (a' ++ [x]).filter isAlnum := by
        rw [List.append_assoc, List.filter_append, List.filter_eq_self.2 hu, runWords_flatten]
      have hrec := ih (p ++ c :: t) (fun h => by rw [hv] at h; cases h) a' b x y hrest hx hy
      rw [hflat, CutAt.append_iff, hrec]
      simp only [List.append_assoc]
    · rw [startsIn_cons, hy] at hv
      cases hv
    · have hvl : startsIn isLower v = false := startsIn_of_imp (fun _ => isAlnum_of_isLower) hv
      have hq' : c :: t = (a ++ [x]) ++ y :: q := by rw [hq]; simp
      have hself : (a ++ [x]).filter isAlnum = a ++ [x] :=
        List.filter_eq_self.2 fun z hz => hu z (hq' ▸ List.mem_append_left _ hz)
      have hlen : (a ++ [x]).length < (runWords (c :: t)).flatten.length := by
        rw [runWords_flatten, hq']
        simp
      rw [hself, CutAt.append_right_iff hlen, cutAt_runWords hp' hu hq' (by simp)]
      simp only [BeginsWord, startsIn_append hvl]
  | hsep c v hc ih =>
    intro p _ a b x y heq hx hy
    have hstart : AtRunStart (p ++ [c]) := fun z hz => by
      simp only [List.getLast?_append, List.getLast?_singleton, Option.some_or,
        Option.mem_some_iff] at hz
      rwa [← hz]
    rw [words_cons_sep v hc]
    cases a with
    | nil =>
      obtain ⟨rfl, -⟩ := List.cons.inj heq
      rw [hx] at hc
      cases hc
    | cons z a =>
      obtain ⟨rfl, hrest⟩ := List.cons.inj heq
      rw [List.cons_append, List.filter_cons_of_neg (by simp [hc]),
        ih (p ++ [c]) (fun _ => hstart) a b x y hrest hx hy, List.append_assoc]
      rfl

/-- **Exactly where words begin**: between two neighbours `x` and `y` a word ends and the next
    one begins if and only if the text before `y` and the character after it say so. -/
theorem splitIdentifer_cut_iff (a b : Str) (x y : Byte) (ok : Option Bool)
    (hx : isAlnum x = true) (hy : isAlnum y = true) :
    (∃ ws₁ ws₂, (splitIdentifer (a ++ x :: y :: b) ok).1 = ws₁ ++ ws₂ ∧
      ws₁.flatten = (a ++ [x]).filter isAlnum) ↔ BeginsWord (a ++ [x]) y b := by
  have halnum : ∃ z ∈ a ++ x :: y :: b, isAlnum z = true := ⟨x, by simp, hx⟩
  rw [splitIdentifer_eq halnum ok]
  exact cutAt_words _ [] (fun _ z hz => by simp at hz) a b x y rfl hx hy

/-- In `my_AB1Cd2` the words `AB1` and `Cd2` part before the `C`. -/
theorem splitIdentifer_cut_iff_AB1Cd2 :
    (∃ ws₁ ws₂, (splitIdentifer (bytes "my_AB1Cd2") none).1 = ws₁ ++ ws₂ ∧
      ws₁.flatten = bytes "myAB1") ↔ BeginsWord (bytes "my_AB1") 0x43 (bytes "d2") :=
  splitIdentifer_cut_iff (bytes "my_AB") (bytes "d2") 0x31 0x43 none rfl rfl

end RefactorCpp

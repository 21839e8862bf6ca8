import Mathlib.Data.List.Chain
import Mathlib.Data.List.DropRight
import RefactorCpp.NameStyle.RoundTrip

/-!
# Identifiers in capitals that are cut again

`gid` tries `camelCase` before `gidUpperCase`, and a capital followed by digits already is a
complete `camelCase` word.  A word like `a1b` is one word; in capitals, `A1B` is read as `A1`
and `B`, while `AB1C` stays whole.

* `CutAgain` — the text of an identifier has such a word: the first letter of a word, then
  digits, then a lower-case letter.  Which letters are the first of their word is read off the
  text before them (`OpensWord`).
* `cutWord_words_iff` — the look-back condition finds exactly the words in question.
* `splitIdentifer_joinIdentifier_upper` — splitting undoes joining in capitals exactly when the
  identifier has no such place.
-/

set_option autoImplicit false

namespace RefactorCpp

open Runs

/-! ## Looking back -/

/-- The capitals and digits right before a place; `p` is the text before it. -/
def capitalRun (p : Str) : Str := p.rtakeWhile isUpperAlnum

/-- No two capitals stand side by side. -/
def NoAcronym (r : Str) : Prop := r.IsChain fun x y => ¬ (isUpper x = true ∧ isUpper y = true)

/-- The letter `x` after the text `p` is the first letter of its word.  A capital opens a word
    unless it continues an acronym.  A lower-case letter opens one at the start of a run,
    possibly after digits, and after an acronym that ends in a digit. -/
def OpensWord (p : Str) (x : Byte) : Prop :=
  (isUpper x = true ∧ NoAcronym (capitalRun p ++ [x])) ∨
  (isLower x = true ∧
    (((∀ c ∈ capitalRun p, isDigit c = true) ∧
        ∀ z ∈ (p.rdropWhile isUpperAlnum).getLast?, isAlnum z = false) ∨
      (¬ NoAcronym (capitalRun p) ∧ ∃ d ∈ p.getLast?, isDigit d = true)))

/-- Digits, and a lower-case letter behind them. -/
def DigitsThenLower (q : Str) : Prop :=
  startsIn isDigit q = true ∧ startsIn isLower (q.dropWhile isDigit) = true

/-- Somewhere in `s`, which stands after `p`, the first letter of a word is followed by digits
    and a lower-case letter. -/
def CutAgainAfter (p s : Str) : Prop :=
  ∃ a x q, s = a ++ x :: q ∧ OpensWord (p ++ a) x ∧ DigitsThenLower q

/-- The first letter of some word is followed by digits and a lower-case letter. -/
def CutAgain (id : Str) : Prop := CutAgainAfter [] id

theorem OpensWord.alpha {p : Str} {x : Byte} (h : OpensWord p x) : isAlpha x = true := by
  rcases h with ⟨h, _⟩ | ⟨h, _⟩ <;> simp [isAlpha, h]

/-! ### Runs that end at a place -/

theorem capitalRun_append (p : Str) {s : Str} (hs : ∀ x ∈ s, isUpperAlnum x = true) :
    capitalRun (p ++ s) = capitalRun p ++ s := by
  have hrev : ∀ x ∈ s.reverse, isUpperAlnum x = true := fun x hx => hs x (List.mem_reverse.1 hx)
  rw [capitalRun, List.rtakeWhile, List.reverse_append, List.takeWhile_append_of_pos hrev,
    List.reverse_append, List.reverse_reverse]
  rfl

theorem capitalRun_capital (p : Str) {c : Byte} {s : Str} (hc : isUpper c = true)
    (hs : ∀ x ∈ s, isUpperAlnum x = true) : capitalRun (p ++ c :: s) = capitalRun p ++ c :: s :=
  capitalRun_append p (List.forall_mem_cons.2 ⟨isUpperAlnum_of_isUpper hc, hs⟩)

theorem capitalRun_stop (p : Str) {z : Byte} {s : Str} (hz : isUpperAlnum z = false)
    (hs : ∀ x ∈ s, isUpperAlnum x = true) : capitalRun (p ++ z :: s) = s := by
  have hcut : p ++ z :: s = (p ++ [z]) ++ s := by simp
  rw [hcut, capitalRun_append _ hs, capitalRun, List.rtakeWhile_concat_neg _ _ z (by simp [hz]),
    List.nil_append]

theorem rdropWhile_stop (p : Str) {z : Byte} {s : Str} (hz : isUpperAlnum z = false)
    (hs : ∀ x ∈ s, isUpperAlnum x = true) :
    (p ++ z :: s).rdropWhile isUpperAlnum = p ++ [z] := by
  have hrev : ∀ x ∈ s.reverse, isUpperAlnum x = true := fun x hx => hs x (List.mem_reverse.1 hx)
  simp [List.rdropWhile, List.dropWhile_append_of_pos hrev, hz]

/-! ### Acronyms -/

theorem noAcronym_of_lower {s : Str} (hs : ∀ x ∈ s, isUpper x = false) : NoAcronym s := by
  apply List.isChain_iff_forall_rel_of_append_cons_cons.2
  rintro a b l₁ l₂ h ⟨ha, _⟩
  rw [hs a (by simp [h])] at ha
  cases ha

theorem noAcronym_append {r s : Str} (hr : NoAcronym r) (hs : ∀ x ∈ s, isUpper x = false) :
    NoAcronym (r ++ s) := by
  apply List.IsChain.append hr (noAcronym_of_lower hs)
  rintro x _ y hy ⟨_, hyu⟩
  rw [hs y (List.mem_of_mem_head? hy)] at hyu
  cases hyu

/-- Digits in between keep a capital from joining an acronym. -/
theorem noAcronym_append_capital {r s : Str} (x : Byte) (hr : NoAcronym r) (hne : s ≠ [])
    (hs : ∀ y ∈ s, isUpper y = false) : NoAcronym (r ++ s ++ [x]) := by
  apply List.IsChain.append (noAcronym_append hr hs) (List.isChain_singleton x)
  rintro y hy z _ ⟨hyu, _⟩
  rw [List.getLast?_append_of_ne_nil _ hne] at hy
  rw [hs y (List.mem_of_getLast? hy)] at hyu
  cases hyu

/-- A capital behind nothing but digits is alone. -/
theorem noAcronym_digits {s : Str} (hs : ∀ y ∈ s, isDigit y = true) (x : Byte) :
    NoAcronym (s ++ [x]) := by
  cases s with
  | nil => exact List.isChain_singleton x
  | cons d s =>
    exact noAcronym_append_capital (r := []) x List.isChain_nil (by simp) fun y hy =>
      isUpper_of_isDigit (hs y hy)

/-- The same holds behind the digits after a lower-case letter. -/
theorem noAcronym_after_lower (q : Str) {z : Byte} {s : Str} (hz : isLower z = true)
    (hs : ∀ y ∈ s, isDigit y = true) (x : Byte) : NoAcronym (capitalRun (q ++ z :: s) ++ [x]) := by
  rw [capitalRun_stop q (isUpperAlnum_of_isLower hz) fun y hy => isUpperAlnum_of_isDigit (hs y hy)]
  exact noAcronym_digits hs x

theorem not_noAcronym {a b : Str} {c d : Byte} (hc : isUpper c = true) (hd : isUpper d = true) :
    ¬ NoAcronym (a ++ c :: d :: b) := fun h =>
  List.isChain_iff_forall_rel_of_append_cons_cons.1 h rfl ⟨hc, hd⟩

/-- A lower-case letter in the same word keeps a later letter from opening one. -/
theorem not_opensWord_of_lower (p : Str) {z x : Byte} {s : Str} (hz : isLower z = true)
    (hs : ∀ y ∈ s, isDigit y = true) (hx : isLower x = true) : ¬ OpensWord (p ++ z :: s) x := by
  have hs' : ∀ y ∈ s, isUpperAlnum y = true := fun y hy => isUpperAlnum_of_isDigit (hs y hy)
  have hz' := isUpperAlnum_of_isLower hz
  rintro (⟨hu, _⟩ | ⟨_, ⟨_, hlast⟩ | ⟨hacr, _⟩⟩)
  · rw [isUpper_of_isLower hx] at hu; cases hu
  · rw [rdropWhile_stop p hz' hs'] at hlast
    have := hlast z (by simp)
    rw [isAlnum_of_isLower hz] at this
    cases this
  · rw [capitalRun_stop p hz' hs'] at hacr
    exact hacr (noAcronym_of_lower fun y hy =>
      isUpper_of_isDigit (hs y hy))

/-- Lower-case letters and digits are all digits, or have a last lower-case letter. -/
theorem lowerAlnum_split {a : Str} (ha : ∀ x ∈ a, isLowerAlnum x = true) :
    (∀ x ∈ a, isDigit x = true) ∨
    ∃ b z s, a = b ++ z :: s ∧ isLower z = true ∧ ∀ x ∈ s, isDigit x = true := by
  induction a with
  | nil => exact .inl (by simp)
  | cons y t ih =>
    rcases ih fun x hx => ha x (List.mem_cons_of_mem _ hx) with h | ⟨b, z, s, rfl, hz, hs⟩
    · rcases Bool.or_eq_true_iff.1 (ha y List.mem_cons_self) with hy | hy
      · exact .inr ⟨[], y, t, rfl, hy, h⟩
      · left
        intro x hx
        rcases List.mem_cons.1 hx with rfl | hx
        · exact hy
        · exact h x hx
    · exact .inr ⟨y :: b, z, s, rfl, hz, hs⟩

/-! ## One hump -/

/-- What the text before a hump `c :: r` tells about it. -/
structure HumpStart (p : Str) (c : Byte) (r : Str) : Prop where
  lower : isLower c = true → OpensWord p c
  upper : isUpper c = true → startsIn isLower r = false → NoAcronym (capitalRun p ++ [c])

theorem startsIn_isLower_of_isDigit {r : Str} (h : startsIn isDigit r = true) :
    startsIn isLower r = false := by
  cases r with
  | nil => rfl
  | cons d r => exact isLower_of_isDigit h

theorem HumpStart.opensWord {p : Str} {c : Byte} {r : Str} (h : HumpStart p c r)
    (hc : isAlpha c = true) (hr : startsIn isDigit r = true) : OpensWord p c := by
  rcases Bool.or_eq_true_iff.1 hc with hc | hc
  · exact .inl ⟨hc, h.upper hc (startsIn_isLower_of_isDigit hr)⟩
  · exact h.lower hc

/-- A capital with digits right after it does not complete an acronym. -/
theorem HumpStart.capitalRun_digits {p : Str} {c : Byte} {r a : Str} (h : HumpStart p c r)
    (hc : isUpper c = true) (hr : startsIn isDigit r = true) (ha : ∀ y ∈ a, isDigit y = true) :
    NoAcronym (capitalRun p ++ [c]) ∧ capitalRun (p ++ c :: a) = capitalRun p ++ [c] ++ a := by
  refine ⟨h.upper hc (startsIn_isLower_of_isDigit hr), ?_⟩
  rw [capitalRun_capital p hc fun y hy => isUpperAlnum_of_isDigit (ha y hy), List.append_cons]

/-! ### Inside a hump -/

/-- A lower-case letter that follows a capital and digits. -/
theorem HumpStart.not_opensWord_digits {p : Str} {c x : Byte} {r a b : Str} (h : HumpStart p c r)
    (hc : isUpper c = true) (hsplit : (hump c r).1 = a ++ x :: b)
    (ha : ∀ y ∈ a, isDigit y = true) (hx : isLower x = true) : ¬ OpensWord (p ++ c :: a) x := by
  rintro (⟨hxu, _⟩ | ⟨_, ⟨hall, _⟩ | ⟨hacr, e, he, hed⟩⟩)
  · rw [isUpper_of_isLower hx] at hxu; cases hxu
  · rw [capitalRun_capital p hc fun y hy => isUpperAlnum_of_isDigit (ha y hy)] at hall
    have := hall c (by simp)
    rw [isDigit_of_isUpper hc] at this
    cases this
  · cases a with
    | nil =>
      simp only [List.getLast?_append, List.getLast?_singleton, Option.some_or,
        Option.mem_some_iff] at he
      rw [← he, isDigit_of_isUpper hc] at hed
      cases hed
    | cons d a =>
      have hr : startsIn isDigit r = true := by
        rw [← hump_append c r, hsplit]
        exact ha d List.mem_cons_self
      obtain ⟨hno, hrun⟩ := h.capitalRun_digits hc hr ha
      rw [hrun] at hacr
      exact hacr (noAcronym_append hno fun y hy => isUpper_of_isDigit (ha y hy))

/-- A later capital of an acronym: the first two stand side by side before it. -/
theorem not_opensWord_acronym {p : Str} {c x : Byte} {r a b : Str} (hc : isUpper c = true)
    (hr : startsIn isLowerAlnum r = false) (hsplit : (spanAcronym r).1 = a ++ x :: b)
    (hx : isAlpha x = true) : ¬ OpensWord (p ++ c :: a) x := by
  have hclass := spanAcronym_class r
  rw [hsplit] at hclass
  have hxu : isUpper x = true := by
    have := isLower_of_isUpperAlnum (hclass x (by simp))
    simpa [isAlpha, this] using hx
  rintro (⟨_, hno⟩ | ⟨hxl, _⟩)
  · rw [capitalRun_capital p hc fun y hy => hclass y (by simp [hy]), List.append_assoc] at hno
    cases a with
    | nil => exact not_noAcronym hc hxu hno
    | cons d a => exact not_noAcronym hc (spanAcronym_head hr hsplit) hno
  · rw [isLower_of_isUpper hxu] at hxl; cases hxl

/-- **A later letter of a hump does not open a word.** -/
theorem HumpStart.not_opensWord {p : Str} {c x : Byte} {r a b : Str} (h : HumpStart p c r)
    (hc : isAlpha c = true) (hx : isAlpha x = true) (hsplit : (hump c r).1 = a ++ x :: b) :
    ¬ OpensWord (p ++ c :: a) x := by
  rcases hump_cases c r with ⟨hlow, _, _⟩ | ⟨hu, hr, hspan⟩
  · -- only lower-case letters and digits since `c`
    rw [hsplit] at hlow
    have hxl : isLower x = true := by
      have hx' := isUpper_of_isLowerAlnum (hlow x (by simp))
      simpa [isAlpha, hx'] using hx
    rcases lowerAlnum_split (a := a) fun y hy => hlow y (by simp [hy]) with
      hdig | ⟨a, z, s, rfl, hz, hs⟩
    · rcases Bool.or_eq_true_iff.1 hc with hcu | hcl
      · exact h.not_opensWord_digits hcu hsplit hdig hxl
      · exact not_opensWord_of_lower p hcl hdig hxl
    · rw [← List.cons_append, ← List.append_assoc]
      exact not_opensWord_of_lower _ hz hs hxl
  · rw [hspan] at hsplit
    exact not_opensWord_acronym hu hr hsplit hx

/-! ### From one hump to the next -/

/-- A lower-case letter after an acronym: it has a second capital and ends in a digit. -/
theorem opensWord_after_acronym {p : Str} {c c' : Byte} {r r' : Str} (hc : isUpper c = true)
    (hr : startsIn isLowerAlnum r = false) (hrest : (spanAcronym r).2 = c' :: r')
    (hl : isLower c' = true) : OpensWord (p ++ c :: (spanAcronym r).1) c' := by
  have happ := spanAcronym_append r
  cases hs : (spanAcronym r).1 with
  | nil =>
    rw [hs, hrest, List.nil_append] at happ
    rw [← happ, startsIn_cons, isLowerAlnum, hl] at hr
    cases hr
  | cons d a =>
    have hclass := spanAcronym_class r
    have hlast := spanAcronym_last hrest hl
    rw [hs] at hclass hlast
    refine .inr ⟨hl, .inr ⟨?_, ?_⟩⟩
    · rw [capitalRun_capital p hc hclass]
      exact not_noAcronym hc (spanAcronym_head hr hs)
    · obtain ⟨e, he⟩ : ∃ e, (d :: a).getLast? = some e :=
        ⟨_, List.getLast?_eq_some_getLast (by simp)⟩
      refine ⟨e, ?_, hlast e he⟩
      rw [List.getLast?_append_of_ne_nil _ (by simp), List.getLast?_cons_cons]
      exact he

/-- A capital after a hump of lower-case letters and digits. -/
theorem HumpStart.noAcronym_next {p : Str} {c c' : Byte} {r r' : Str} (h : HumpStart p c r)
    (hc : isAlpha c = true) (hrest : (hump c r).2 = c' :: r')
    (hlow : ∀ x ∈ (hump c r).1, isLowerAlnum x = true)
    (hstart : isUpper c = true → startsIn isLowerAlnum r = true) (hu : isUpper c' = true) :
    NoAcronym (capitalRun (p ++ c :: (hump c r).1) ++ [c']) := by
  rcases lowerAlnum_split hlow with hdig | ⟨a, z, s, heq, hz, hs⟩
  · rcases Bool.or_eq_true_iff.1 hc with hcu | hcl
    · cases hhump : (hump c r).1 with
      | nil =>
        have := hstart hcu
        rw [← hump_append c r, hhump, hrest, List.nil_append, startsIn_cons,
          isLowerAlnum_of_isUpper hu] at this
        cases this
      | cons d a =>
        rw [hhump] at hdig
        have hr : startsIn isDigit r = true := by
          rw [← hump_append c r, hhump]
          exact hdig d List.mem_cons_self
        obtain ⟨hno, hrun⟩ := h.capitalRun_digits hcu hr hdig
        rw [hrun]
        exact noAcronym_append_capital c' hno (by simp) fun y hy => isUpper_of_isDigit (hdig y hy)
    · exact noAcronym_after_lower p hcl hdig c'
  · rw [heq, ← List.cons_append, ← List.append_assoc]
    exact noAcronym_after_lower _ hz hs c'

/-- **The look-back facts carry over from one hump to the next.** -/
theorem HumpStart.next {p : Str} {c c' : Byte} {r r' : Str} (h : HumpStart p c r)
    (hc : isAlpha c = true) (hrest : (hump c r).2 = c' :: r') :
    HumpStart (p ++ c :: (hump c r).1) c' r' := by
  rcases hump_cases c r with ⟨hlow, hstart, hstop⟩ | ⟨hu, hr, hspan⟩
  · rw [hrest, startsIn_cons, isLowerAlnum, Bool.or_eq_false_iff] at hstop
    refine ⟨fun hl => absurd hl (by simp [hstop.1]), fun hu' _ => ?_⟩
    exact h.noAcronym_next hc hrest hlow hstart hu'
  · rw [hspan] at hrest ⊢
    refine ⟨fun hl => opensWord_after_acronym hu hr hrest hl, fun hu' hno => ?_⟩
    rw [(spanAcronym_stop hrest).2 hu'] at hno
    cases hno

/-! ## All words of an identifier -/

/-- A word whose first letter is followed by digits and a lower-case letter. -/
def CutWord (w : Str) : Prop :=
  ∃ ds c h, w = ds ++ c :: h ∧ (∀ x ∈ ds, isDigit x = true) ∧ isAlpha c = true ∧ DigitsThenLower h

theorem cutWord_cons {c : Byte} {h : Str} (hc : isAlpha c = true) :
    CutWord (c :: h) ↔ DigitsThenLower h := by
  constructor
  · rintro ⟨ds, c', h', heq, hds, _, hfol⟩
    cases ds with
    | nil => cases heq; exact hfol
    | cons d ds =>
      obtain ⟨rfl, _⟩ := List.cons.inj heq
      have hd := hds c List.mem_cons_self
      rw [isDigit_of_isAlpha hc] at hd
      cases hd
  · exact fun hfol => ⟨[], c, h, rfl, by simp, hc, hfol⟩

theorem cutWord_digits_append {ds b : Str} (hds : ∀ x ∈ ds, isDigit x = true) (hb : Body b) :
    CutWord (ds ++ b) ↔ CutWord b := by
  obtain ⟨c, h, rfl, hc⟩ := hb.head
  rw [cutWord_cons hc]
  have hnd := startsIn_isDigit_of_body hb
  constructor
  · rintro ⟨ds', c', h', heq, hds', hc', hfol⟩
    have hnd' : startsIn isDigit (c' :: h') = false := isDigit_of_isAlpha hc'
    have hdrop := congrArg (List.dropWhile isDigit) heq
    rw [dropWhile_run hds hnd, dropWhile_run hds' hnd'] at hdrop
    cases hdrop
    exact hfol
  · exact fun hfol => ⟨ds, c, h, rfl, hds, hc, hfol⟩

theorem not_cutWord_digits {ds : Str} (hds : ∀ x ∈ ds, isDigit x = true) : ¬ CutWord ds := by
  rintro ⟨ds', c, h, rfl, _, hc, _⟩
  have hd := hds c (by simp)
  rw [isDigit_of_isAlpha hc] at hd
  cases hd

theorem digitsThenLower_append {u v : Str} (hd : startsIn isDigit v = false)
    (hl : startsIn isLower v = false) : DigitsThenLower (u ++ v) ↔ DigitsThenLower u := by
  unfold DigitsThenLower
  rw [startsIn_append hd, dropWhile_append hd, startsIn_append hl]

/-- Whether digits and a lower-case letter follow is decided inside the hump. -/
theorem digitsThenLower_hump (c : Byte) (r : Str) :
    DigitsThenLower (hump c r).1 ↔ DigitsThenLower r := by
  have hd := hump_stop c r
  rcases hump_cases c r with ⟨_, _, hstop⟩ | ⟨_, hr, hspan⟩
  · have hl : startsIn isLower (hump c r).2 = false :=
      startsIn_of_imp (fun _ => isLowerAlnum_of_isLower) hstop
    rw [← digitsThenLower_append hd hl, hump_append]
  · have hr' : startsIn isDigit r = false :=
      startsIn_of_imp (fun _ => isLowerAlnum_of_isDigit) hr
    have hh : startsIn isDigit (hump c r).1 = false := by
      rw [← startsIn_append hd, hump_append, hr']
    simp [DigitsThenLower, hh, hr']

/-- A place in `u ++ v` is a place in `u` or a place in `v`. -/
theorem cutAgainAfter_append (p u v : Str) :
    CutAgainAfter p (u ++ v) ↔
      (∃ a x b, u = a ++ x :: b ∧ OpensWord (p ++ a) x ∧ DigitsThenLower (b ++ v)) ∨
      CutAgainAfter (p ++ u) v := by
  constructor
  · rintro ⟨a, x, q, heq, hopen, hfol⟩
    rcases List.append_eq_append_iff.1 heq with ⟨b, rfl, rfl⟩ | ⟨b, rfl, hb⟩
    · exact .inr ⟨b, x, q, rfl, by rwa [List.append_assoc], hfol⟩
    · cases b with
      | nil =>
        rw [List.nil_append] at hb
        exact .inr ⟨[], x, q, hb.symm, by simpa using hopen, hfol⟩
      | cons y b =>
        obtain ⟨rfl, rfl⟩ := List.cons.inj hb
        exact .inl ⟨a, x, b, rfl, hopen, hfol⟩
  · rintro (⟨a, x, b, rfl, hopen, hfol⟩ | ⟨a, x, q, rfl, hopen, hfol⟩)
    · exact ⟨a, x, b ++ v, by simp, hopen, hfol⟩
    · exact ⟨u ++ a, x, q, by simp, by rwa [← List.append_assoc], hfol⟩

/-- A part without letters contains no such place. -/
theorem cutAgainAfter_append_of_not_alpha (p : Str) {u : Str} (v : Str)
    (hu : ∀ x ∈ u, isAlpha x = false) : CutAgainAfter p (u ++ v) ↔ CutAgainAfter (p ++ u) v := by
  rw [cutAgainAfter_append]
  constructor
  · rintro (⟨a, x, b, rfl, hopen, _⟩ | h)
    · have := hu x (by simp)
      rw [hopen.alpha] at this
      cases this
    · exact h
  · exact .inr

theorem cutWord_nil_iff (p : Str) : (∃ w ∈ ([] : List Str), CutWord w) ↔ CutAgainAfter p [] := by
  constructor
  · rintro ⟨w, hw, -⟩
    cases hw
  · rintro ⟨a, x, q, heq, -⟩
    exact absurd heq.symm (by simp)

/-- The humps of the rest of a run. -/
theorem cutWord_humps_iff (s : Str) : ∀ p : Str, (∀ x ∈ s, isAlnum x = true) →
    (∀ c r, s = c :: r → isAlpha c = true ∧ HumpStart p c r) →
    ((∃ w ∈ humps s, CutWord w) ↔ CutAgainAfter p s) := by
  fun_induction humps s with
  | case1 =>
    intro p _ _
    exact cutWord_nil_iff p
  | case2 c r ih =>
    intro p halnum hs
    obtain ⟨hc, hstart⟩ := hs c r rfl
    have happ := hump_append c r
    have hrest : ∀ x ∈ (hump c r).2, isAlnum x = true := fun x hx =>
      halnum x (List.mem_cons_of_mem _ (happ ▸ List.mem_append_right _ hx))
    have hrec := ih (p ++ c :: (hump c r).1) hrest fun c' r' h => by
      have hd := hump_stop c r
      rw [h] at hd hrest
      exact ⟨isAlpha_of_isAlnum (hrest c' List.mem_cons_self) hd, hstart.next hc h⟩
    have hcut : c :: r = c :: (hump c r).1 ++ (hump c r).2 := by rw [List.cons_append, happ]
    rw [List.exists_mem_cons_iff, hrec, hcut, cutAgainAfter_append]
    -- the only place inside the hump is at its first letter
    apply or_congr_left
    rw [cutWord_cons hc, digitsThenLower_hump]
    constructor
    · intro hfol
      exact ⟨[], c, (hump c r).1, rfl, by simpa using hstart.opensWord hc hfol.1, by rwa [happ]⟩
    · rintro ⟨a, x, b, heq, hopen, hfol⟩
      cases a with
      | nil =>
        obtain ⟨_, hb⟩ := List.cons.inj heq
        rwa [← hb, happ] at hfol
      | cons y a =>
        obtain ⟨rfl, ha⟩ := List.cons.inj heq
        exact absurd hopen (hstart.not_opensWord hc hopen.alpha ha)

/-- A place is at the start of the identifier or behind a separator. -/
def AtRunStart (p : Str) : Prop := ∀ z ∈ p.getLast?, isAlnum z = false

theorem AtRunStart.run {p : Str} (hp : AtRunStart p) :
    capitalRun p = [] ∧ p.rdropWhile isUpperAlnum = p := by
  rcases List.eq_nil_or_concat p with rfl | ⟨q, z, rfl⟩
  · exact ⟨rfl, rfl⟩
  · have hz : ¬ isUpperAlnum z = true := fun h => by
      have := hp z (by simp)
      rw [isAlnum_of_isUpperAlnum h] at this
      cases this
    rw [List.concat_eq_append]
    exact ⟨List.rtakeWhile_concat_neg _ _ z hz, List.rdropWhile_concat_neg _ _ z hz⟩

/-- The first hump of a run, after the digits in front. -/
theorem HumpStart.first {p ds : Str} (hp : AtRunStart p) (hds : ∀ x ∈ ds, isDigit x = true)
    (c : Byte) (r : Str) : HumpStart (p ++ ds) c r := by
  have hcap : ∀ x ∈ ds, isUpperAlnum x = true := fun x hx => isUpperAlnum_of_isDigit (hds x hx)
  obtain ⟨hrun, hdrop⟩ := hp.run
  have hrun' : capitalRun (p ++ ds) = ds := by rw [capitalRun_append p hcap, hrun, List.nil_append]
  have hdrop' : (p ++ ds).rdropWhile isUpperAlnum = p := by
    have hrev : ∀ x ∈ ds.reverse, isUpperAlnum x = true := fun x hx =>
      hcap x (List.mem_reverse.1 hx)
    unfold List.rdropWhile
    rw [List.reverse_append, List.dropWhile_append_of_pos hrev]
    exact hdrop
  refine ⟨fun hl => .inr ⟨hl, .inl ⟨by rwa [hrun'], by rwa [hdrop']⟩⟩, fun _ _ => ?_⟩
  rw [hrun']
  exact noAcronym_digits hds c

theorem cutWord_runWords_iff {p u : Str} (hp : AtRunStart p) (hu : ∀ x ∈ u, isAlnum x = true) :
    (∃ w ∈ runWords u, CutWord w) ↔ CutAgainAfter p u := by
  obtain ⟨ds, t, rfl, hds, ht⟩ := run_split isDigit u
  have htalnum : ∀ x ∈ t, isAlnum x = true := fun x hx => hu x (List.mem_append_right _ hx)
  have hnoalpha : ∀ x ∈ ds, isAlpha x = false := fun x hx => isAlpha_of_isDigit (hds x hx)
  have hhumps := cutWord_humps_iff t (p ++ ds) htalnum fun c r h => by
    subst h
    exact ⟨isAlpha_of_isAlnum (htalnum c List.mem_cons_self) ht, .first hp hds c r⟩
  rw [cutAgainAfter_append_of_not_alpha p t hnoalpha, ← hhumps, runWords, takeWhile_run hds ht,
    dropWhile_run hds ht]
  have hbody := humps_body t htalnum ht
  cases hh : humps t with
  | nil =>
    rw [prependDigits]
    split
    · simp
    · simpa using not_cutWord_digits hds
  | cons b bs =>
    rw [hh] at hbody
    rw [prependDigits, List.exists_mem_cons_iff, List.exists_mem_cons_iff,
      cutWord_digits_append hds (hbody b List.mem_cons_self)]

/-- **The look-back condition finds exactly the identifiers with such a word.** -/
theorem cutWord_words_iff (id : Str) : (∃ w ∈ words id, CutWord w) ↔ CutAgain id := by
  suffices ∀ s p : Str, (startsIn isAlnum s = true → AtRunStart p) →
      ((∃ w ∈ words s, CutWord w) ↔ CutAgainAfter p s) from
    this id [] fun _ z hz => by simp at hz
  intro s
  induction s using runs_induction with
  | hnil =>
    intro p _
    rw [words_nil]
    exact cutWord_nil_iff p
  | hrun u v hne hu hv ih =>
    intro p hp
    obtain ⟨c, t, rfl⟩ := List.exists_cons_of_ne_nil hne
    have hp' : AtRunStart p := hp (hu c List.mem_cons_self)
    have hvd : startsIn isDigit v = false := startsIn_of_imp (fun _ => isAlnum_of_isDigit) hv
    have hvl : startsIn isLower v = false := startsIn_of_imp (fun _ => isAlnum_of_isLower) hv
    have hrest := ih (p ++ c :: t) fun h => by rw [hv] at h; cases h
    rw [words_run_append hu hv, cutAgainAfter_append, ← hrest]
    have hfirst := cutWord_runWords_iff hp' hu
    simp only [CutAgainAfter] at hfirst
    simp only [List.mem_append, or_and_right, exists_or, hfirst,
      digitsThenLower_append hvd hvl]
  | hsep c v hc ih =>
    intro p _
    have hnoalpha : ∀ x ∈ [c], isAlpha x = false := fun x hx => by
      rw [List.mem_singleton.1 hx]
      simp only [isAlnum, Bool.or_eq_false_iff] at hc
      exact hc.1
    have hstart : AtRunStart (p ++ [c]) := fun z hz => by
      simp only [List.getLast?_append, List.getLast?_singleton, Option.some_or,
        Option.mem_some_iff] at hz
      rwa [← hz]
    rw [words_cons_sep v hc, ← List.singleton_append,
      cutAgainAfter_append_of_not_alpha p v hnoalpha, ih (p ++ [c]) fun _ => hstart]

/-! ## Words in capitals -/

theorem isUpperAlnum_of_mem_upper {s : Str} (hs : ∀ x ∈ s, isAlnum x = true) :
    ∀ x ∈ upper s, isUpperAlnum x = true := by
  intro x hx
  obtain ⟨y, hy, rfl⟩ := List.mem_map.1 hx
  exact isUpperAlnum_toUpper (hs y hy)

theorem digits_upper {ds : Str} (h : ∀ x ∈ ds, isDigit x = true) :
    ∀ x ∈ upper ds, isDigit x = true := by
  intro x hx
  obtain ⟨y, hy, rfl⟩ := List.mem_map.1 hx
  rw [isDigit_toUpper]
  exact h y hy

theorem startsIn_isDigit_upper (s : Str) : startsIn isDigit (upper s) = startsIn isDigit s := by
  cases s with
  | nil => rfl
  | cons c s => exact isDigit_toUpper c

theorem dropWhile_isDigit_upper (s : Str) :
    (upper s).dropWhile isDigit = upper (s.dropWhile isDigit) := by
  unfold upper
  rw [List.dropWhile_map]
  congr 2
  funext c
  exact isDigit_toUpper c

/-- In capitals and digits a hump goes on to the end, unless digits follow its first letter. -/
theorem hump_upper_rest {c : Byte} {h : Str} (hb : Body (c :: h)) :
    (hump (toUpper c) (upper h)).2 = [] ↔ ¬ DigitsThenLower h := by
  have halnum : ∀ x ∈ h, isAlnum x = true := fun x hx => hb.alnum x (List.mem_cons_of_mem _ hx)
  have hc : isUpper (toUpper c) = true := by
    obtain ⟨_, _, heq, hc⟩ := hb.head
    obtain ⟨rfl, _⟩ := List.cons.inj heq
    rw [isUpper_toUpper, hc]
  have hclass := isUpperAlnum_of_mem_upper halnum
  have hla : ∀ x ∈ upper h, isLowerAlnum x = isDigit x := fun x hx => by
    rw [isLowerAlnum, isLower_of_isUpperAlnum (hclass x hx), Bool.false_or]
  have hstart : startsIn isLowerAlnum (upper h) = startsIn isDigit h := by
    rw [← startsIn_isDigit_upper]
    cases hh : upper h with
    | nil => rfl
    | cons x t => exact hla x (by rw [hh]; exact List.mem_cons_self)
  unfold hump
  rw [hc, hstart]
  cases hd : startsIn isDigit h with
  | false => simp [DigitsThenLower, hd, spanAcronym_all hclass]
  | true =>
    -- the hump is a capital with digits; what is left of `h` starts with a lower-case letter
    have hlow : ∀ x ∈ h, isLowerAlnum x = true := by
      cases hb with
      | humped _ hr => exact hr
      | acronym _ hd' _ => rw [startsIn_cons, isDigit_of_isUpper hd'] at hd; cases hd
    have hdrop : (upper h).dropWhile isLowerAlnum = upper (h.dropWhile isDigit) := by
      rw [← dropWhile_isDigit_upper]
      exact dropWhile_congr hla
    have hrest : startsIn isLower (h.dropWhile isDigit) = true ↔ h.dropWhile isDigit ≠ [] := by
      have hstop := startsIn_dropWhile isDigit h
      cases hh : h.dropWhile isDigit with
      | nil => simp
      | cons y t =>
        rw [hh] at hstop
        have hy := hlow y ((List.dropWhile_sublist isDigit).subset (hh ▸ List.mem_cons_self))
        rw [startsIn_cons] at hstop
        simpa [isLowerAlnum, hstop] using hy
    simp only [Bool.not_true, Bool.and_false, Bool.false_eq_true, if_false, hdrop, DigitsThenLower,
      hd, true_and, hrest, not_not]
    simp [upper]

theorem runWords_upper_iff {w : Str} (h : IsWord w) :
    runWords (upper w) = [upper w] ↔ ¬ CutWord w := by
  cases h with
  | digits hne hds =>
    have hword : IsWord (upper w) := .digits (by simpa [upper] using hne) (digits_upper hds)
    exact iff_of_true (runWords_of_isWord hword) (not_cutWord_digits hds)
  | @body ds b hds hb =>
    obtain ⟨c, h, rfl, hc⟩ := hb.head
    have hup : upper (ds ++ c :: h) = upper ds ++ toUpper c :: upper h := by simp [upper]
    have hstop : startsIn isDigit (toUpper c :: upper h) = false := by
      rw [startsIn_cons, isDigit_toUpper]
      exact startsIn_isDigit_of_body hb
    have happ := hump_append (toUpper c) (upper h)
    rw [cutWord_digits_append hds hb, cutWord_cons hc, ← hump_upper_rest hb, hup, runWords,
      takeWhile_run (digits_upper hds) hstop, dropWhile_run (digits_upper hds) hstop, humps_cons,
      prependDigits]
    constructor
    · intro heq
      have hnil : humps (hump (toUpper c) (upper h)).2 = [] := (List.cons.inj heq).2
      rw [← humps_flatten (hump (toUpper c) (upper h)).2, hnil]
      rfl
    · intro hnil
      rw [hnil, List.append_nil] at happ
      rw [hnil, humps_nil, happ]

theorem IsWord.alnum_upper {w : Str} (h : IsWord w) : ∀ x ∈ upper w, isAlnum x = true :=
  fun x hx => isAlnum_of_isUpperAlnum (isUpperAlnum_of_mem_upper h.alnum x hx)

/-- **Splitting undoes joining in capitals exactly when no place of the identifier is cut
    again.** -/
theorem splitIdentifer_joinIdentifier_upper (id : Str) (style : TypeNameStyle)
    (h : ∃ x ∈ id, isAlnum x = true) (hcap : style.capitalization = .upperCase)
    (hne : style.wordDelimiter ≠ []) (hd : ∀ x ∈ style.wordDelimiter, isAlnum x = false)
    (hpre : style.namePrefix = []) (hsuf : style.nameSuffix = []) :
    (splitIdentifer (joinIdentifier (splitIdentifer id none).1 style) none).1 =
      (splitIdentifer id none).1.map upper ↔ ¬ CutAgain id := by
  have hconv : convertParts style.capitalization 0 (words id) = (words id).map upper :=
    convertParts_eq_map (fun w n => by rw [hcap]; rfl) 0 (words id)
  have hword := words_isWord id
  have hupper : ∀ w ∈ words id, words (upper w) = runWords (upper w) := fun w hw =>
    words_of_run (hword w hw).alnum_upper
  have hne' : ∀ w ∈ words id, runWords (upper w) ≠ [] := by
    intro w hw hnil
    have hflat := runWords_flatten (upper w)
    rw [hnil] at hflat
    exact (hword w hw).ne_nil (by simpa [upper] using hflat.symm)
  have hjoin : words (joinIdentifier (words id) style) =
      (words id).flatMap fun w => runWords (upper w) := by
    rw [words_joinIdentifier (by simp [hpre]) (by simp [hsuf]) hne hd, hconv, List.flatMap_map]
    exact List.flatMap_congr hupper
  have hnil : (words id).flatMap (fun w => runWords (upper w)) ≠ [] := by
    obtain ⟨w, ws, hws⟩ := List.exists_cons_of_ne_nil (words_ne_nil h)
    rw [hws] at hne' ⊢
    simpa using fun hnil => absurd hnil (hne' w List.mem_cons_self)
  rw [splitIdentifer_eq h]
  rw [splitIdentifer_of_words hjoin hnil]
  calc
    (words id).flatMap (fun w => runWords (upper w)) = (words id).map upper
      ↔ ∀ w ∈ words id, runWords (upper w) = [upper w] := flatMap_eq_map_iff hne'
    _ ↔ ∀ w ∈ words id, ¬ CutWord w := forall₂_congr fun w hw => runWords_upper_iff (hword w hw)
    _ ↔ ¬ ∃ w ∈ words id, CutWord w := by simp
    _ ↔ ¬ CutAgain id := not_congr (cutWord_words_iff id)

theorem splitIdentifer_joinIdentifier_upper_my_2MACROs_u8 :
    (splitIdentifer (joinIdentifier (splitIdentifer (bytes "my_2MACROs_u8") none).1
      ⟨.upperCase, bytes "_", [], []⟩) none).1 =
      (splitIdentifer (bytes "my_2MACROs_u8") none).1.map upper ↔
      ¬ CutAgain (bytes "my_2MACROs_u8") :=
  splitIdentifer_joinIdentifier_upper _ _ ⟨0x6D, by decide⟩ rfl (by decide) (by decide) rfl rfl

/-- The macro `A1B` made from the name `a1b` is read back as two words. -/
theorem splitIdentifer_joinIdentifier_upper_a1b :
    ¬ ∀ (id : Str) (style : TypeNameStyle), (∃ x ∈ id, isAlnum x = true) →
      style.capitalization = .upperCase → style.wordDelimiter ≠ [] →
      (∀ x ∈ style.wordDelimiter, isAlnum x = false) → style.namePrefix = [] →
      style.nameSuffix = [] →
      (splitIdentifer (joinIdentifier (splitIdentifer id none).1 style) none).1 =
        (splitIdentifer id none).1.map upper := by
  intro hall
  have h := hall (bytes "a1b") ⟨.upperCase, bytes "_", [], []⟩ ⟨0x61, by decide⟩ rfl (by decide)
    (by decide) rfl rfl
  revert h
  decide

end RefactorCpp

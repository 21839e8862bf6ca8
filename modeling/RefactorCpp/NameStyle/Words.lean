import RefactorCpp.Support.Runs
import RefactorCpp.Text

/-!
# What a word of an identifier is

The purpose of the splitter, stated without parsers.  An identifier is cut at its
non-alphanumeric bytes into runs; every run is cut into humps.

* `hump` — the longest hump at the start of a run: a letter with the lower-case letters and
  digits after it, or an acronym, which stops before a capital that starts the next hump.
* `Body`, `IsWord` — the possible shapes of a hump and of a word (a hump with leading digits).
* `words_isWord`, `words_flatten` — every word has such a shape, and no character is lost.
* `words_append_seps` — separators are boundaries, whatever stands around them.
* `words_joined` — **a list of words joined by separators is cut into exactly these words.**
-/

set_option autoImplicit false

namespace RefactorCpp

open Runs

/-- The class of `lower_alnum`. -/
def isLowerAlnum (c : Byte) : Bool := isLower c || isDigit c

/-- The class of `upper_alnum`. -/
def isUpperAlnum (c : Byte) : Bool := isUpper c || isDigit c

/-- The class of `id_sep`. -/
def isSep (c : Byte) : Bool := !isAlnum c

theorem isLowerAlnum_of_isLower {c : Byte} (h : isLower c = true) : isLowerAlnum c = true := by
  simp [isLowerAlnum, h]

theorem isLowerAlnum_of_isDigit {c : Byte} (h : isDigit c = true) : isLowerAlnum c = true := by
  simp [isLowerAlnum, h]

theorem isUpperAlnum_of_isUpper {c : Byte} (h : isUpper c = true) : isUpperAlnum c = true := by
  simp [isUpperAlnum, h]

theorem isUpperAlnum_of_isDigit {c : Byte} (h : isDigit c = true) : isUpperAlnum c = true := by
  simp [isUpperAlnum, h]

theorem isAlnum_of_isLowerAlnum {c : Byte} (h : isLowerAlnum c = true) : isAlnum c = true := by
  rcases Bool.or_eq_true_iff.1 h with h | h
  · exact isAlnum_of_isLower h
  · exact isAlnum_of_isDigit h

theorem isAlnum_of_isUpperAlnum {c : Byte} (h : isUpperAlnum c = true) : isAlnum c = true := by
  rcases Bool.or_eq_true_iff.1 h with h | h
  · exact isAlnum_of_isUpper h
  · exact isAlnum_of_isDigit h

theorem isUpper_of_isLowerAlnum {c : Byte} (h : isLowerAlnum c = true) : isUpper c = false := by
  cases hu : isUpper c with
  | false => rfl
  | true => simp [isLowerAlnum, isLower_of_isUpper hu, isDigit_of_isUpper hu] at h

theorem isLower_of_isUpperAlnum {c : Byte} (h : isUpperAlnum c = true) : isLower c = false := by
  cases hl : isLower c with
  | false => rfl
  | true => simp [isUpperAlnum, isUpper_of_isLower hl, isDigit_of_isLower hl] at h

theorem isLowerAlnum_of_isUpper {c : Byte} (h : isUpper c = true) : isLowerAlnum c = false := by
  simp [isLowerAlnum, isLower_of_isUpper h, isDigit_of_isUpper h]

theorem isUpperAlnum_of_isLower {c : Byte} (h : isLower c = true) : isUpperAlnum c = false := by
  simp [isUpperAlnum, isUpper_of_isLower h, isDigit_of_isLower h]

theorem isSep_eq_true_iff {c : Byte} : isSep c = true ↔ isAlnum c = false := by
  simp [isSep]

theorem not_isAlnum_of_mem_takeWhile {s : Str} : ∀ x ∈ s.takeWhile isSep, isAlnum x = false :=
  fun _ hx => isSep_eq_true_iff.1 (List.mem_takeWhile_imp hx)

/-- Behind the separators at the front stands an alphanumeric character. -/
theorem isAlnum_of_dropWhile {s r : Str} {c : Byte} (h : s.dropWhile isSep = c :: r) :
    isAlnum c = true := by
  have hstop := startsIn_dropWhile isSep s
  rw [h, startsIn_cons] at hstop
  simpa [isSep] using hstop

/-! ## Humps -/

/-- Digits and capitals up to a capital with a lower-case letter after it. -/
def spanAcronym : Str → Str × Str
  | [] => ([], [])
  | c :: r =>
    if isDigit c || (isUpper c && !startsIn isLower r) then
      (c :: (spanAcronym r).1, (spanAcronym r).2)
    else ([], c :: r)

/-- The rest of the hump that starts with `c`, and what follows it. -/
def hump (c : Byte) (r : Str) : Str × Str :=
  if isUpper c && !startsIn isLowerAlnum r then spanAcronym r
  else (r.takeWhile isLowerAlnum, r.dropWhile isLowerAlnum)

/-- The shapes of a hump: a letter with lower-case letters and digits, or an acronym. -/
inductive Body : Str → Prop
  | humped {c : Byte} {r : Str} (hc : isAlpha c = true) (hr : ∀ x ∈ r, isLowerAlnum x = true) :
      Body (c :: r)
  | acronym {c d : Byte} {r : Str} (hc : isUpper c = true) (hd : isUpper d = true)
      (hr : ∀ x ∈ r, isUpperAlnum x = true) : Body (c :: d :: r)

theorem spanAcronym_append (s : Str) : (spanAcronym s).1 ++ (spanAcronym s).2 = s := by
  induction s with
  | nil => rfl
  | cons c r ih =>
    unfold spanAcronym
    split
    · simpa using ih
    · rfl

theorem spanAcronym_class (s : Str) : ∀ x ∈ (spanAcronym s).1, isUpperAlnum x = true := by
  induction s with
  | nil => intro x hx; cases hx
  | cons c r ih =>
    unfold spanAcronym
    split
    · rename_i h
      intro x hx
      rcases List.mem_cons.1 hx with rfl | hx
      · rcases Bool.or_eq_true_iff.1 h with h | h
        · exact isUpperAlnum_of_isDigit h
        · exact isUpperAlnum_of_isUpper (Bool.and_eq_true_iff.1 h).1
      · exact ih x hx
    · intro x hx; cases hx

/-- An acronym is as long as possible. -/
theorem spanAcronym_stop {s t : Str} {y : Byte} (h : (spanAcronym s).2 = y :: t) :
    isDigit y = false ∧ (isUpper y = true → startsIn isLower t = true) := by
  induction s with
  | nil => cases h
  | cons c r ih =>
    unfold spanAcronym at h
    split at h
    · exact ih h
    · rename_i hc
      cases h
      cases hd : isDigit y <;> cases hu : isUpper y <;> simp_all

/-- Before a lower-case letter an acronym ends in a digit. -/
theorem spanAcronym_last {r t : Str} {y : Byte} (hrest : (spanAcronym r).2 = y :: t)
    (hy : isLower y = true) : ∀ e ∈ (spanAcronym r).1.getLast?, isDigit e = true := by
  induction r with
  | nil => cases hrest
  | cons c r ih =>
    unfold spanAcronym at hrest ⊢
    split at hrest
    · rename_i hc
      rw [if_pos hc]
      simp only at hrest ⊢
      cases hspan : (spanAcronym r).1 with
      | nil =>
        have happ := spanAcronym_append r
        rw [hspan, hrest, List.nil_append] at happ
        rw [← happ, startsIn_cons, hy] at hc
        simpa using hc
      | cons d h =>
        have := ih hrest
        rw [hspan] at this
        simpa using this
    · cases hrest
      rename_i hc
      rw [if_neg hc]
      simp

/-- What comes after the end of the run makes no difference. -/
theorem spanAcronym_local {u v : Str} (hv : startsIn isAlnum v = false) :
    spanAcronym (u ++ v) = ((spanAcronym u).1, (spanAcronym u).2 ++ v) := by
  induction u with
  | nil =>
    cases v with
    | nil => rfl
    | cons y t =>
      obtain ⟨hu, -, hd⟩ := not_isAlnum_iff.1 hv
      simp [spanAcronym, hd, hu]
  | cons c u ih =>
    have hl : startsIn isLower (u ++ v) = startsIn isLower u :=
      startsIn_append (startsIn_of_imp (fun _ => isAlnum_of_isLower) hv)
    simp only [List.cons_append, spanAcronym, hl, ih]
    split <;> rfl

theorem spanAcronym_all {s : Str} (h : ∀ x ∈ s, isUpperAlnum x = true) :
    spanAcronym s = (s, []) := by
  induction s with
  | nil => rfl
  | cons c r ih =>
    have hr : ∀ x ∈ r, isUpperAlnum x = true := fun x hx => h x (List.mem_cons_of_mem _ hx)
    have hl : startsIn isLower r = false :=
      startsIn_of_forall fun x hx => isLower_of_isUpperAlnum (hr x hx)
    have hc := Bool.or_eq_true_iff.1 (h c List.mem_cons_self)
    have hcond : (isDigit c || (isUpper c && !startsIn isLower r)) = true := by
      rcases hc with hc | hc <;> simp [hc, hl]
    simp [spanAcronym, hcond, ih hr]

theorem hump_append (c : Byte) (r : Str) : (hump c r).1 ++ (hump c r).2 = r := by
  unfold hump
  split
  · exact spanAcronym_append r
  · exact List.takeWhile_append_dropWhile

theorem hump_rest_length (c : Byte) (r : Str) : (hump c r).2.length ≤ r.length := by
  have h := congrArg List.length (hump_append c r)
  rw [List.length_append] at h
  omega

theorem hump_local (c : Byte) {u v : Str} (hv : startsIn isAlnum v = false) :
    hump c (u ++ v) = ((hump c u).1, (hump c u).2 ++ v) := by
  have hl : startsIn isLowerAlnum v = false :=
    startsIn_of_imp (fun _ => isAlnum_of_isLowerAlnum) hv
  unfold hump
  rw [startsIn_append hl]
  split
  · rw [spanAcronym_local hv]
  · rw [takeWhile_append hl, dropWhile_append hl]

/-- An acronym goes on with a second capital. -/
theorem spanAcronym_head {r h : Str} {d : Byte} (hr : startsIn isLowerAlnum r = false)
    (hspan : (spanAcronym r).1 = d :: h) : isUpper d = true := by
  have hd := spanAcronym_class r d (by rw [hspan]; exact List.mem_cons_self)
  have happ := spanAcronym_append r
  rw [hspan] at happ
  rw [← happ, List.cons_append, startsIn_cons, isLowerAlnum, Bool.or_eq_false_iff] at hr
  simpa [isUpperAlnum, hr.2] using hd

/-- The two kinds of humps, as the text after the first letter shows them. -/
theorem hump_cases (c : Byte) (r : Str) :
    ((∀ x ∈ (hump c r).1, isLowerAlnum x = true) ∧
      (isUpper c = true → startsIn isLowerAlnum r = true) ∧
      startsIn isLowerAlnum (hump c r).2 = false) ∨
    (isUpper c = true ∧ startsIn isLowerAlnum r = false ∧ hump c r = spanAcronym r) := by
  unfold hump
  cases hu : isUpper c with
  | false => exact .inl ⟨fun x hx => List.mem_takeWhile_imp hx, by simp, startsIn_dropWhile _ _⟩
  | true =>
    cases hr : startsIn isLowerAlnum r with
    | false => exact .inr ⟨rfl, rfl, rfl⟩
    | true => exact .inl ⟨fun x hx => List.mem_takeWhile_imp hx, by simp, startsIn_dropWhile _ _⟩

/-- A hump that starts with a letter has one of the two shapes. -/
theorem hump_body {c : Byte} (hc : isAlpha c = true) (r : Str) : Body (c :: (hump c r).1) := by
  rcases hump_cases c r with ⟨hlow, _⟩ | ⟨hu, hr, hspan⟩
  · exact .humped hc hlow
  · rw [hspan]
    have hclass := spanAcronym_class r
    cases hs : (spanAcronym r).1 with
    | nil => exact .humped hc (by simp)
    | cons d t =>
      rw [hs] at hclass
      exact .acronym hu (spanAcronym_head hr hs) fun x hx => hclass x (List.mem_cons_of_mem _ hx)

/-- A digit never starts a hump that follows another one. -/
theorem hump_stop (c : Byte) (r : Str) : startsIn isDigit (hump c r).2 = false := by
  unfold hump
  split
  · cases h : (spanAcronym r).2 with
    | nil => rfl
    | cons y t => exact (spanAcronym_stop h).1
  · exact startsIn_of_imp (fun _ => isLowerAlnum_of_isDigit) (startsIn_dropWhile isLowerAlnum r)

/-- A text with the shape of a hump is one hump. -/
theorem hump_of_body {c : Byte} {r : Str} (h : Body (c :: r)) : hump c r = (r, []) := by
  cases h with
  | humped hc hr =>
    have hspan : (r.takeWhile isLowerAlnum, r.dropWhile isLowerAlnum) = (r, []) := by
      rw [List.takeWhile_eq_self_iff.2 hr, List.dropWhile_eq_nil_iff.2 hr]
    cases r with
    | nil => unfold hump; split <;> rfl
    | cons x t =>
      have hx : startsIn isLowerAlnum (x :: t) = true := hr x List.mem_cons_self
      simpa [hump, hx] using hspan
  | @acronym _ d t hc hd hr =>
    have hx : startsIn isLowerAlnum (d :: t) = false := isLowerAlnum_of_isUpper hd
    have hall : ∀ x ∈ d :: t, isUpperAlnum x = true := by
      intro x hx
      rcases List.mem_cons.1 hx with rfl | hx
      · exact isUpperAlnum_of_isUpper hd
      · exact hr x hx
    simp only [hump, hc, hx, Bool.not_false, Bool.and_true, if_true, spanAcronym_all hall]

theorem Body.alnum {b : Str} (h : Body b) : ∀ x ∈ b, isAlnum x = true := by
  cases h with
  | humped hc hr =>
    intro x hx
    rcases List.mem_cons.1 hx with rfl | hx
    · exact isAlnum_of_isAlpha hc
    · exact isAlnum_of_isLowerAlnum (hr x hx)
  | acronym hc hd hr =>
    intro x hx
    simp only [List.mem_cons] at hx
    rcases hx with rfl | rfl | hx
    · exact isAlnum_of_isUpper hc
    · exact isAlnum_of_isUpper hd
    · exact isAlnum_of_isUpperAlnum (hr x hx)

/-- A hump starts with a letter. -/
theorem Body.head {b : Str} (h : Body b) : ∃ c r, b = c :: r ∧ isAlpha c = true := by
  cases h with
  | @humped c r hc hr => exact ⟨c, r, rfl, hc⟩
  | @acronym c d r hc hd hr => exact ⟨c, d :: r, rfl, by simp [isAlpha, hc]⟩

/-! ## Cutting a run -/

/-- All humps of a run, from left to right. -/
def humps : Str → List Str
  | [] => []
  | c :: r => (c :: (hump c r).1) :: humps (hump c r).2
termination_by s => s.length
decreasing_by
  have := hump_rest_length c r
  simp only [List.length_cons]
  omega

/-- Digits at the start of a run belong to the first word. -/
def prependDigits (ds : Str) : List Str → List Str
  | [] => if ds.isEmpty then [] else [ds]
  | w :: ws => (ds ++ w) :: ws

/-- The words of a run of alphanumeric bytes. -/
def runWords (u : Str) : List Str :=
  prependDigits (u.takeWhile isDigit) (humps (u.dropWhile isDigit))

/-- A word: a hump, possibly with digits in front, or digits alone. -/
inductive IsWord : Str → Prop
  | digits {ds : Str} (hne : ds ≠ []) (hds : ∀ x ∈ ds, isDigit x = true) : IsWord ds
  | body {ds b : Str} (hds : ∀ x ∈ ds, isDigit x = true) (hb : Body b) : IsWord (ds ++ b)

@[simp] theorem humps_nil : humps [] = [] := by
  unfold humps
  rfl

theorem humps_cons (c : Byte) (r : Str) :
    humps (c :: r) = (c :: (hump c r).1) :: humps (hump c r).2 := by
  rw [humps]

theorem humps_flatten (s : Str) : (humps s).flatten = s := by
  fun_induction humps s with
  | case1 => rfl
  | case2 c r ih => rw [List.flatten_cons, ih, List.cons_append, hump_append]

theorem humps_of_body {b : Str} (h : Body b) : humps b = [b] := by
  obtain ⟨c, r, rfl, hc⟩ := h.head
  rw [humps_cons, hump_of_body h, humps_nil]

/-- In a run that does not start with a digit every hump starts with a letter. -/
theorem humps_body (s : Str) (hs : ∀ x ∈ s, isAlnum x = true) (hd : startsIn isDigit s = false) :
    ∀ w ∈ humps s, Body w := by
  fun_induction humps s with
  | case1 => intro w hw; cases hw
  | case2 c r ih =>
    have hc : isAlpha c = true := isAlpha_of_isAlnum (hs c List.mem_cons_self) hd
    intro w hw
    rcases List.mem_cons.1 hw with rfl | hw
    · exact hump_body hc r
    · refine ih (fun x hx => hs x (List.mem_cons_of_mem _ ?_)) (hump_stop c r) w hw
      rw [← hump_append c r]
      exact List.mem_append_right _ hx

theorem startsIn_isDigit_of_body {b : Str} (h : Body b) : startsIn isDigit b = false := by
  obtain ⟨c, r, rfl, hc⟩ := h.head
  exact isDigit_of_isAlpha hc

@[simp] theorem runWords_nil : runWords [] = [] := by
  simp [runWords, prependDigits]

/-- Without digits in front the words of a run are its humps. -/
theorem runWords_of_startsIn {u : Str} (h : startsIn isDigit u = false) : runWords u = humps u := by
  unfold runWords
  rw [takeWhile_of_startsIn h, dropWhile_of_startsIn h]
  cases humps u with
  | nil => rfl
  | cons w ws => rfl

theorem prependDigits_flatten (ds : Str) (ws : List Str) :
    (prependDigits ds ws).flatten = ds ++ ws.flatten := by
  cases ws with
  | nil =>
    cases ds with
    | nil => rfl
    | cons d ds => simp [prependDigits]
  | cons w ws => simp [prependDigits]

theorem runWords_flatten (u : Str) : (runWords u).flatten = u := by
  unfold runWords
  rw [prependDigits_flatten, humps_flatten, List.takeWhile_append_dropWhile]

theorem runWords_isWord {u : Str} (hu : ∀ x ∈ u, isAlnum x = true) :
    ∀ w ∈ runWords u, IsWord w := by
  have hds : ∀ x ∈ u.takeWhile isDigit, isDigit x = true := fun x hx => List.mem_takeWhile_imp hx
  have hb : ∀ w ∈ humps (u.dropWhile isDigit), Body w :=
    humps_body _ (fun x hx => hu x (List.dropWhile_sublist _ |>.subset hx)) (startsIn_dropWhile _ _)
  intro w hw
  unfold runWords at hw
  cases hh : humps (u.dropWhile isDigit) with
  | nil =>
    rw [hh, prependDigits] at hw
    split at hw
    · cases hw
    · rename_i hne
      rw [List.mem_singleton] at hw
      subst hw
      exact .digits (by simpa using hne) hds
  | cons b bs =>
    rw [hh] at hw hb
    rcases List.mem_cons.1 hw with rfl | hw
    · exact .body hds (hb b List.mem_cons_self)
    · simpa using @IsWord.body [] _ (by simp) (hb w (List.mem_cons_of_mem _ hw))

/-- **A word standing alone is not cut again.** -/
theorem runWords_of_isWord {w : Str} (h : IsWord w) : runWords w = [w] := by
  cases h with
  | digits hne hds =>
    rw [runWords, List.takeWhile_eq_self_iff.2 hds, List.dropWhile_eq_nil_iff.2 hds]
    simp [prependDigits, hne]
  | @body ds b hds hb =>
    have hd := startsIn_isDigit_of_body hb
    rw [runWords, takeWhile_run hds hd, dropWhile_run hds hd, humps_of_body hb]
    rfl

theorem IsWord.alnum {w : Str} (h : IsWord w) : ∀ x ∈ w, isAlnum x = true := by
  cases h with
  | digits hne hds => exact fun x hx => isAlnum_of_isDigit (hds x hx)
  | body hds hb =>
    intro x hx
    rcases List.mem_append.1 hx with hx | hx
    · exact isAlnum_of_isDigit (hds x hx)
    · exact hb.alnum x hx

theorem IsWord.ne_nil {w : Str} (h : IsWord w) : w ≠ [] := by
  cases h with
  | digits hne hds => exact hne
  | body hds hb =>
    obtain ⟨c, r, rfl, hc⟩ := hb.head
    simp

/-! ## Cutting an identifier -/

/-- The words of an identifier, run by run. -/
def words (id : Str) : List Str := (id.splitOnP isSep).flatMap runWords

@[simp] theorem words_nil : words [] = [] := by
  simp [words]

/-- A separator is a boundary. -/
theorem words_append_sep (a b : Str) {c : Byte} (hc : isAlnum c = false) :
    words (a ++ c :: b) = words a ++ words b := by
  unfold words
  rw [List.splitOnP_append_cons a b (isSep_eq_true_iff.2 hc), List.flatMap_append]

theorem words_cons_sep (b : Str) {c : Byte} (hc : isAlnum c = false) :
    words (c :: b) = words b := by
  simpa using words_append_sep [] b hc

theorem words_sep_append {s : Str} (hs : ∀ x ∈ s, isAlnum x = false) (b : Str) :
    words (s ++ b) = words b := by
  induction s with
  | nil => rfl
  | cons c s ih =>
    rw [List.cons_append, words_cons_sep _ (hs c List.mem_cons_self),
      ih fun x hx => hs x (List.mem_cons_of_mem _ hx)]

theorem words_of_sep {s : Str} (hs : ∀ x ∈ s, isAlnum x = false) : words s = [] := by
  simpa using words_sep_append hs []

theorem words_append_of_sep (a : Str) {s : Str} (hs : ∀ x ∈ s, isAlnum x = false) :
    words (a ++ s) = words a := by
  cases s with
  | nil => rw [List.append_nil]
  | cons c s =>
    rw [words_append_sep a s (hs c List.mem_cons_self),
      words_of_sep fun x hx => hs x (List.mem_cons_of_mem _ hx), List.append_nil]

/-- **Any non-empty text of separators is a boundary.** -/
theorem words_append_seps (a b : Str) {s : Str} (hne : s ≠ []) (hs : ∀ x ∈ s, isAlnum x = false) :
    words (a ++ s ++ b) = words a ++ words b := by
  obtain ⟨c, s, rfl⟩ := List.exists_cons_of_ne_nil hne
  rw [List.append_assoc, List.cons_append, words_append_sep _ _ (hs c List.mem_cons_self),
    words_sep_append fun x hx => hs x (List.mem_cons_of_mem _ hx)]

theorem words_of_run {u : Str} (hu : ∀ x ∈ u, isAlnum x = true) : words u = runWords u := by
  have h : ∀ x ∈ u, isSep x = false := fun x hx => by simp [isSep, hu x hx]
  rw [words, List.splitOnP_eq_singleton h, List.flatMap_singleton]

/-- The first run of a text, and the rest. -/
theorem words_run_append {u v : Str} (hu : ∀ x ∈ u, isAlnum x = true)
    (hv : startsIn isAlnum v = false) : words (u ++ v) = runWords u ++ words v := by
  cases v with
  | nil => rw [List.append_nil, words_of_run hu, words_nil, List.append_nil]
  | cons c v => rw [words_append_sep u v hv, words_of_run hu, words_cons_sep v hv]

/-- Cut the first run off a text; induction on the number of runs. -/
theorem runs_induction {P : Str → Prop} (hnil : P [])
    (hrun : ∀ u v, u ≠ [] → (∀ x ∈ u, isAlnum x = true) → startsIn isAlnum v = false → P v →
      P (u ++ v))
    (hsep : ∀ c v, isAlnum c = false → P v → P (c :: v)) (s : Str) : P s := by
  induction hn : s.length using Nat.strongRecOn generalizing s with
  | _ n ih =>
    cases s with
    | nil => exact hnil
    | cons c t =>
      cases hc : isAlnum c with
      | false => exact hsep c t hc (ih t.length (by simp at hn; omega) t rfl)
      | true =>
        have hsplit := List.takeWhile_append_dropWhile (p := isAlnum) (l := c :: t)
        have htake : (c :: t).takeWhile isAlnum ≠ [] := by simp [hc]
        have hlen : ((c :: t).dropWhile isAlnum).length < n := by
          have h := congrArg List.length hsplit
          have hpos := List.length_pos_iff.2 htake
          rw [List.length_append] at h
          omega
        rw [← hsplit]
        exact hrun _ _ htake (fun x hx => List.mem_takeWhile_imp hx) (startsIn_dropWhile _ _)
          (ih _ hlen _ rfl)

/-- **Every word has the shape of a word.** -/
theorem words_isWord (id : Str) : ∀ w ∈ words id, IsWord w := by
  induction id using runs_induction with
  | hnil => simp
  | hrun u v hne hu hv ih =>
    rw [words_run_append hu hv]
    intro w hw
    rcases List.mem_append.1 hw with hw | hw
    · exact runWords_isWord hu w hw
    · exact ih w hw
  | hsep c v hc ih => rwa [words_cons_sep v hc]

/-- **No character is lost, repeated or moved.** -/
theorem words_flatten (id : Str) : (words id).flatten = id.filter isAlnum := by
  induction id using runs_induction with
  | hnil => simp
  | hrun u v hne hu hv ih =>
    rw [words_run_append hu hv, List.flatten_append, runWords_flatten, ih, List.filter_append,
      List.filter_eq_self.2 hu]
  | hsep c v hc ih => rw [words_cons_sep v hc, ih, List.filter_cons_of_neg (by simp [hc])]

theorem words_of_isWord {w : Str} (h : IsWord w) : words w = [w] := by
  rw [words_of_run h.alnum, runWords_of_isWord h]

/-- Texts joined by separators are cut one by one. -/
theorem words_intercalate {d : Str} (hne : d ≠ []) (hd : ∀ x ∈ d, isAlnum x = false)
    (us : List Str) : words (d.intercalate us) = us.flatMap words := by
  induction us with
  | nil => simp [List.intercalate_nil]
  | cons u us ih =>
    cases us with
    | nil => simp [List.intercalate_singleton]
    | cons u' us =>
      rw [List.intercalate_cons_cons, words_append_seps _ _ hne hd, ih, List.flatMap_cons (x := u)]

theorem flatMap_words {ws : List Str} (hws : ∀ w ∈ ws, IsWord w) : ws.flatMap words = ws :=
  flatMap_eq_self fun w hw => words_of_isWord (hws w hw)

/-- **Joining words with a separator and cutting again gives the words.** -/
theorem words_joined {d : Str} (hne : d ≠ []) (hd : ∀ x ∈ d, isAlnum x = false) {ws : List Str}
    (hws : ∀ w ∈ ws, IsWord w) : words (d.intercalate ws) = ws := by
  rw [words_intercalate hne hd, flatMap_words hws]

theorem exists_isAlnum_of_words {s : Str} (h : words s ≠ []) : ∃ x ∈ s, isAlnum x = true := by
  by_contra hno
  exact h (words_of_sep (not_exists_isAlnum.1 hno))

theorem words_ne_nil {s : Str} (h : ∃ x ∈ s, isAlnum x = true) : words s ≠ [] := by
  intro hnil
  have hflat := words_flatten s
  obtain ⟨x, hx, hax⟩ := h
  have hmem : x ∈ s.filter isAlnum := List.mem_filter.2 ⟨hx, hax⟩
  rw [← hflat, hnil] at hmem
  cases hmem

end RefactorCpp

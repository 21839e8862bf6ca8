import Mathlib.Data.List.Basic

/-!
# Parsing expression grammars with attributes, expectations and a skipper

Executable combinators over an arbitrary token type `τ`, collecting a list of attributes `β`:

* `Outcome` — a parse fails, aborts or succeeds with the collected attributes and the rest of
  the input; a failed parse carries neither, so a failed branch contributes nothing and the
  next branch starts at the same place.
* `Abort` — the two ways a parse ends without an answer: a required part was missing (an
  exception in the libraries of this kind), or a repetition never consumes anything.
* `Context` — the skipper of a phrase parse and whether skipping is on at the moment.
* `many_eq`, `many_spec` — one turn of the greedy repetition, and the induction rule for it.
* `NoAbort` — the parsers that never abort, which gives the induction rule its last premise.
* `many_char`, `many_omitted_char` — a repeated character class is `takeWhile` / `dropWhile`.
-/

set_option autoImplicit false

namespace Peg

variable {τ β γ : Type}

/-- Why a parse ended without an answer. -/
inductive Abort where
  | expectation
  | endless
  deriving DecidableEq, Repr

/-- How a parse ends: with attributes and the rest of the input if it succeeds. -/
inductive Outcome (τ β : Type) where
  | fail
  | abort (why : Abort)
  | ok (attr : List β) (rest : List τ)
  deriving DecidableEq, Repr

/-- Put attributes collected earlier in front. -/
def Outcome.prepend (a : List β) : Outcome τ β → Outcome τ β
  | .ok b r => .ok (a ++ b) r
  | .fail => .fail
  | .abort e => .abort e

/-- Continue on the rest of the input, keeping the attributes in order. -/
def Outcome.andThen (o : Outcome τ β) (k : List τ → Outcome τ β) : Outcome τ β :=
  match o with
  | .ok a r => (k r).prepend a
  | .fail => .fail
  | .abort e => .abort e

/-- Replace the attributes of a success. -/
def Outcome.mapAttr (f : List β → List γ) : Outcome τ β → Outcome τ γ
  | .ok a r => .ok (f a) r
  | .fail => .fail
  | .abort e => .abort e

@[simp] theorem prepend_ok (a b : List β) (r : List τ) :
    (Outcome.ok b r).prepend a = .ok (a ++ b) r := rfl

@[simp] theorem prepend_fail (a : List β) : (Outcome.fail : Outcome τ β).prepend a = .fail := rfl

@[simp] theorem prepend_abort (a : List β) (e : Abort) :
    (Outcome.abort e : Outcome τ β).prepend a = .abort e := rfl

@[simp] theorem andThen_ok (a : List β) (r : List τ) (k : List τ → Outcome τ β) :
    (Outcome.ok a r).andThen k = (k r).prepend a := rfl

@[simp] theorem andThen_fail (k : List τ → Outcome τ β) :
    (Outcome.fail : Outcome τ β).andThen k = .fail := rfl

@[simp] theorem mapAttr_ok (f : List β → List γ) (a : List β) (r : List τ) :
    (Outcome.ok a r).mapAttr f = .ok (f a) r := rfl

@[simp] theorem mapAttr_fail (f : List β → List γ) :
    (Outcome.fail : Outcome τ β).mapAttr f = .fail := rfl

/-- The skipper given to a phrase parse, and whether it is active. -/
structure Context (τ : Type) where
  skipper : τ → Bool
  skipping : Bool

/-- The input behind the tokens that are skipped. -/
def Context.skipOver (c : Context τ) (s : List τ) : List τ :=
  if c.skipping then s.dropWhile c.skipper else s

/-- The same skipper, switched off. -/
def Context.off (c : Context τ) : Context τ := { c with skipping := false }

/-- The same skipper, switched on. -/
def Context.on (c : Context τ) : Context τ := { c with skipping := true }

/-- A parser of tokens `τ` with attributes `β`. -/
abbrev Parser (τ β : Type) := Context τ → List τ → Outcome τ β

/-! ## Combinators -/

/-- One token of a class; it is its own attribute. -/
def char (f : τ → Bool) : Parser τ τ := fun c s =>
  match c.skipOver s with
  | [] => .fail
  | x :: r => if f x then .ok [x] r else .fail

/-- These tokens in this order, without an attribute. -/
def lit [BEq τ] (t : List τ) : Parser τ β := fun c s =>
  if t.isPrefixOf (c.skipOver s) then .ok [] ((c.skipOver s).drop t.length) else .fail

/-- One parser after the other. -/
def seq (p q : Parser τ β) : Parser τ β := fun c s => (p c s).andThen (q c)

/-- Ordered choice. -/
def alt (p q : Parser τ β) : Parser τ β := fun c s =>
  match p c s with
  | .fail => q c s
  | o => o

/-- Greedy repetition with a bound on the number of turns. -/
def manyLoop (p : Parser τ β) (c : Context τ) : Nat → List τ → Outcome τ β
  | 0, _ => .abort .endless
  | n + 1, s =>
    match p c s with
    | .fail => .ok [] s
    | .abort e => .abort e
    | .ok a r => (manyLoop p c n r).prepend a

/-- Greedy repetition.  With more turns than tokens, some turn consumed nothing, and from
    there on the repetition never ends. -/
def many (p : Parser τ β) : Parser τ β := fun c s => manyLoop p c (s.length + 1) s

/-- Greedy repetition, at least once. -/
def many1 (p : Parser τ β) : Parser τ β := seq p (many p)

/-- Items with separators between them; a separator without an item after it is not taken. -/
def listOf (p sep : Parser τ β) : Parser τ β := seq p (many (seq sep p))

/-- A parser that may also match nothing. -/
def opt (p : Parser τ β) : Parser τ β := fun c s =>
  match p c s with
  | .fail => .ok [] s
  | o => o

/-- Negative lookahead. -/
def notAt (p : Parser τ γ) : Parser τ β := fun c s =>
  match p c s with
  | .fail => .ok [] s
  | .abort e => .abort e
  | .ok _ _ => .fail

/-- A required part: failing here aborts the whole parse. -/
def expect (p : Parser τ β) : Parser τ β := fun c s =>
  match p c s with
  | .fail => .abort .expectation
  | o => o

/-- Recognise without attributes. -/
def omitted (p : Parser τ γ) : Parser τ β := fun c s => (p c s).mapAttr fun _ => []

/-- The attributes of `p` become one element. -/
def item (p : Parser τ β) : Parser τ (List β) := fun c s => (p c s).mapAttr fun a => [a]

/-- Skip first, then switch skipping off. -/
def lexeme (p : Parser τ β) : Parser τ β := fun c s => p c.off (c.skipOver s)

/-- Switch skipping off, without skipping first. -/
def noSkip (p : Parser τ β) : Parser τ β := fun c s => p c.off s

/-- Switch skipping on. -/
def reskip (p : Parser τ β) : Parser τ β := fun c s => p c.on s

/-- A parse with a skipper that also skips after the last token. -/
def phraseParse (p : Parser τ β) (skipper : τ → Bool) (s : List τ) : Outcome τ β :=
  match p ⟨skipper, true⟩ s with
  | .ok a r => .ok a (r.dropWhile skipper)
  | o => o

/-! ## Rules -/

section Rules

variable {c : Context τ} {p q : Parser τ β} {s r : List τ} {a : List β}

theorem seq_ok (h : p c s = .ok a r) : seq p q c s = (q c r).prepend a := by
  simp [seq, h]

theorem seq_fail (h : p c s = .fail) : seq p q c s = .fail := by
  simp [seq, h]

theorem alt_ok (h : p c s = .ok a r) : alt p q c s = .ok a r := by
  simp [alt, h]

theorem alt_fail (h : p c s = .fail) : alt p q c s = q c s := by
  simp [alt, h]

theorem opt_ok (h : p c s = .ok a r) : opt p c s = .ok a r := by
  simp [opt, h]

theorem opt_fail (h : p c s = .fail) : opt p c s = .ok [] s := by
  simp [opt, h]

theorem expect_ok (h : p c s = .ok a r) : expect p c s = .ok a r := by
  simp [expect, h]

theorem expect_fail (h : p c s = .fail) : expect p c s = .abort .expectation := by
  simp [expect, h]

theorem lit_ok [BEq τ] [LawfulBEq τ] {t : List τ} (h : c.skipOver s = t ++ r) :
    lit t c s = (.ok [] r : Outcome τ β) := by
  unfold lit
  rw [h, if_pos (List.isPrefixOf_iff_prefix.2 (List.prefix_append t r)), List.drop_left]

theorem lit_eq_ok [BEq τ] [LawfulBEq τ] {t : List τ} (h : lit t c s = .ok a r) :
    c.skipOver s = t ++ r ∧ a = [] := by
  unfold lit at h
  split at h
  · rename_i hprefix
    cases h
    obtain ⟨u, hu⟩ := List.isPrefixOf_iff_prefix.1 hprefix
    rw [← hu, List.drop_left]
    exact ⟨rfl, rfl⟩
  · cases h

theorem expect_eq_ok (h : expect p c s = .ok a r) : p c s = .ok a r := by
  unfold expect at h
  cases hp : p c s with
  | fail => rw [hp] at h; cases h
  | abort e => rw [hp] at h; cases h
  | ok a' r' => rw [hp] at h; exact h

theorem item_ok (h : p c s = .ok a r) : item p c s = .ok [a] r := by
  simp [item, h]

theorem item_fail (h : p c s = .fail) : item p c s = .fail := by
  simp [item, h]

@[simp] theorem lexeme_off (p : Parser τ β) (c : Context τ) (s : List τ) :
    lexeme p c.off s = p c.off s := rfl

@[simp] theorem char_nil (f : τ → Bool) (c : Context τ) : char f c.off [] = .fail := rfl

theorem char_cons (f : τ → Bool) (c : Context τ) (x : τ) (r : List τ) :
    char f c.off (x :: r) = if f x then .ok [x] r else .fail := rfl

/-- A choice between two character classes is the class of their union. -/
theorem alt_char (f g : τ → Bool) : alt (char f) (char g) = char (fun x => f x || g x) := by
  funext c s
  simp only [alt, char]
  cases c.skipOver s with
  | nil => rfl
  | cons x r => cases hf : f x <;> simp [hf]

end Rules

/-! ## Repetition -/

/-- Every success consumes something. -/
def Progress (p : Parser τ β) : Prop :=
  ∀ c s a r, p c s = .ok a r → r.length < s.length

/-- No success gives back more than it got. -/
def NonGrowing (p : Parser τ β) : Prop :=
  ∀ c s a r, p c s = .ok a r → r.length ≤ s.length

theorem Progress.nonGrowing {p : Parser τ β} (hp : Progress p) : NonGrowing p :=
  fun c s a r h => Nat.le_of_lt (hp c s a r h)

/-- The input is never given up with an exception, and no repetition is endless. -/
def NoAbort (p : Parser τ β) : Prop := ∀ c s e, p c s ≠ .abort e

theorem prepend_eq_ok {o : Outcome τ β} {a b : List β} {r : List τ}
    (h : o.prepend a = .ok b r) : ∃ b', o = .ok b' r ∧ b = a ++ b' := by
  cases o with
  | fail => cases h
  | abort e => cases h
  | ok b' r' => cases h; exact ⟨b', rfl, rfl⟩

theorem seq_eq_ok {p q : Parser τ β} {c : Context τ} {s r : List τ} {a : List β}
    (h : seq p q c s = .ok a r) :
    ∃ a₁ r₁ a₂, p c s = .ok a₁ r₁ ∧ q c r₁ = .ok a₂ r ∧ a = a₁ ++ a₂ := by
  unfold seq at h
  cases hp : p c s with
  | fail => rw [hp] at h; cases h
  | abort e => rw [hp] at h; cases h
  | ok a₁ r₁ =>
    rw [hp, andThen_ok] at h
    obtain ⟨a₂, hq, rfl⟩ := prepend_eq_ok h
    exact ⟨a₁, r₁, a₂, rfl, hq, rfl⟩

theorem mapAttr_eq_ok {o : Outcome τ β} {f : List β → List γ} {a : List γ} {r : List τ}
    (h : o.mapAttr f = .ok a r) : ∃ a', o = .ok a' r ∧ a = f a' := by
  cases o with
  | fail => cases h
  | abort e => cases h
  | ok a' r' => cases h; exact ⟨a', rfl, rfl⟩

theorem skipOver_length_le (c : Context τ) (s : List τ) :
    (c.skipOver s).length ≤ s.length := by
  unfold Context.skipOver
  split
  · exact (List.dropWhile_sublist _).length_le
  · exact Nat.le_refl _

theorem char_progress (f : τ → Bool) : Progress (char f) := by
  intro c s a r h
  have hle := skipOver_length_le c s
  unfold char at h
  split at h
  · cases h
  · rename_i x t hs
    split at h
    · cases h
      rw [hs, List.length_cons] at hle
      omega
    · cases h

theorem omitted_progress {p : Parser τ γ} (hp : Progress p) :
    Progress (omitted p : Parser τ β) := by
  intro c s a r h
  obtain ⟨a', h', -⟩ := mapAttr_eq_ok h
  exact hp c s a' r h'

theorem lit_progress [BEq τ] [LawfulBEq τ] {t : List τ} (hne : t ≠ []) :
    Progress (lit t : Parser τ β) := by
  intro c s a r h
  have hle := skipOver_length_le c s
  have hpos := List.length_pos_iff.2 hne
  rw [(lit_eq_ok h).1, List.length_append] at hle
  omega

theorem reskip_progress {p : Parser τ β} (hp : Progress p) : Progress (reskip p) :=
  fun c s a r h => hp c.on s a r h

theorem item_progress {p : Parser τ β} (hp : Progress p) : Progress (item p) := by
  intro c s a r h
  obtain ⟨a', h', -⟩ := mapAttr_eq_ok h
  exact hp c s a' r h'

theorem lexeme_progress {p : Parser τ β} (hp : Progress p) : Progress (lexeme p) := by
  intro c s a r h
  exact Nat.lt_of_lt_of_le (hp c.off _ a r h) (skipOver_length_le c s)

theorem seq_progress {p q : Parser τ β} (hp : Progress p) (hq : NonGrowing q) :
    Progress (seq p q) := by
  intro c s a r h
  obtain ⟨a₁, r₁, a₂, h₁, h₂, _⟩ := seq_eq_ok h
  exact Nat.lt_of_le_of_lt (hq c r₁ a₂ r h₂) (hp c s a₁ r₁ h₁)

theorem alt_progress {p q : Parser τ β} (hp : Progress p) (hq : Progress q) :
    Progress (alt p q) := by
  intro c s a r h
  unfold alt at h
  cases hps : p c s with
  | fail => rw [hps] at h; exact hq c s a r h
  | abort e => rw [hps] at h; cases h
  | ok a' r' => rw [hps] at h; cases h; exact hp c s a r hps

theorem opt_nonGrowing {p : Parser τ β} (hp : NonGrowing p) : NonGrowing (opt p) := by
  intro c s a r h
  unfold opt at h
  cases hps : p c s with
  | fail => rw [hps] at h; cases h; exact Nat.le_refl _
  | abort e => rw [hps] at h; cases h
  | ok a' r' => rw [hps] at h; cases h; exact hp c s a r hps

theorem notAt_nonGrowing (p : Parser τ γ) : NonGrowing (notAt p : Parser τ β) := by
  intro c s a r h
  unfold notAt at h
  cases hps : p c s with
  | fail => rw [hps] at h; cases h; exact Nat.le_refl _
  | abort e => rw [hps] at h; cases h
  | ok a' r' => rw [hps] at h; cases h

theorem manyLoop_nonGrowing {p : Parser τ β} (hp : NonGrowing p) (c : Context τ) :
    ∀ (n : Nat) (s : List τ) (a : List β) (r : List τ), manyLoop p c n s = .ok a r →
      r.length ≤ s.length := by
  intro n
  induction n with
  | zero => intro s a r h; cases h
  | succ n ih =>
    intro s a r h
    unfold manyLoop at h
    cases hps : p c s with
    | fail => rw [hps] at h; cases h; exact Nat.le_refl _
    | abort e => rw [hps] at h; cases h
    | ok a₁ r₁ =>
      rw [hps] at h
      obtain ⟨a₂, h₂, _⟩ := prepend_eq_ok h
      exact Nat.le_trans (ih r₁ a₂ r h₂) (hp c s a₁ r₁ hps)

theorem many_nonGrowing {p : Parser τ β} (hp : Progress p) : NonGrowing (many p) :=
  fun c s a r h => manyLoop_nonGrowing hp.nonGrowing c _ s a r h

theorem many1_progress {p : Parser τ β} (hp : Progress p) : Progress (many1 p) :=
  seq_progress hp (many_nonGrowing hp)

/-- Turns beyond the number of tokens make no difference. -/
theorem manyLoop_stable {p : Parser τ β} (hp : Progress p) (c : Context τ) :
    ∀ (n m : Nat) (s : List τ), s.length < n → s.length < m →
      manyLoop p c n s = manyLoop p c m s := by
  intro n
  induction n with
  | zero => intro m s hn; exact absurd hn (Nat.not_lt_zero _)
  | succ n ih =>
    intro m s hn hm
    obtain ⟨m, rfl⟩ : ∃ k, m = k + 1 := ⟨m - 1, by omega⟩
    cases h : p c s with
    | fail => simp [manyLoop, h]
    | abort e => simp [manyLoop, h]
    | ok a r =>
      have hr := hp c s a r h
      simp only [manyLoop, h]
      rw [ih m r (by omega) (by omega)]

/-- One turn of the greedy repetition. -/
theorem many_eq {p : Parser τ β} (hp : Progress p) (c : Context τ) (s : List τ) :
    many p c s =
      match p c s with
      | .fail => .ok [] s
      | .abort e => .abort e
      | .ok a r => (many p c r).prepend a := by
  cases h : p c s with
  | fail => simp [many, manyLoop, h]
  | abort e => simp [many, manyLoop, h]
  | ok a r =>
    have hr := hp c s a r h
    rw [many, manyLoop, h]
    simp only [many]
    rw [manyLoop_stable hp c s.length (r.length + 1) r (by omega) (by omega)]

/-- **Induction rule for the greedy repetition.**  A relation between the input, the
    collected attributes and the rest that holds when the repetition stops and is carried
    backwards over one turn holds of the whole repetition, which always succeeds. -/
theorem many_spec {p : Parser τ β} (hp : Progress p) {c : Context τ}
    {I : List τ → List β → List τ → Prop}
    (hstop : ∀ s, p c s = .fail → I s [] s)
    (hturn : ∀ s a r b t, p c s = .ok a r → I r b t → I s (a ++ b) t)
    (habort : ∀ s e, p c s ≠ .abort e) (s : List τ) :
    ∃ b t, many p c s = .ok b t ∧ I s b t := by
  induction hn : s.length using Nat.strongRecOn generalizing s with
  | _ n ih =>
    rw [many_eq hp]
    cases h : p c s with
    | fail => exact ⟨[], s, rfl, hstop s h⟩
    | abort e => exact absurd h (habort s e)
    | ok a r =>
      have hr := hp c s a r h
      obtain ⟨b, t, hb, hI⟩ := ih r.length (by omega) r rfl
      exact ⟨a ++ b, t, by simp [hb], hturn s a r b t h hI⟩

/-! ## Parsers that never abort -/

theorem char_noAbort (f : τ → Bool) : NoAbort (char f) := by
  intro c s e h
  unfold char at h
  split at h
  · cases h
  · split at h <;> cases h

theorem lit_noAbort [BEq τ] (t : List τ) : NoAbort (lit t : Parser τ β) := by
  intro c s e h
  unfold lit at h
  split at h <;> cases h

theorem seq_noAbort {p q : Parser τ β} (hp : NoAbort p) (hq : NoAbort q) : NoAbort (seq p q) := by
  intro c s e h
  unfold seq at h
  cases hps : p c s with
  | fail => rw [hps] at h; cases h
  | abort e' => exact hp c s e' hps
  | ok a r =>
    rw [hps, andThen_ok] at h
    cases hqr : q c r with
    | fail => rw [hqr] at h; cases h
    | abort e' => exact hq c r e' hqr
    | ok b t => rw [hqr] at h; cases h

theorem many_noAbort {p : Parser τ β} (hprog : Progress p) (hp : NoAbort p) :
    NoAbort (many p) := by
  intro c s e h
  obtain ⟨b, t, hok, -⟩ := many_spec hprog (c := c) (I := fun _ _ _ => True) (fun _ _ => trivial)
    (fun _ _ _ _ _ _ _ => trivial) (hp c) s
  rw [hok] at h
  cases h

/-- The induction rule, for a result that is already known. -/
theorem many_induction {p : Parser τ β} (hprog : Progress p) (hp : NoAbort p) {c : Context τ}
    {I : List τ → List β → List τ → Prop}
    (hstop : ∀ s, p c s = .fail → I s [] s)
    (hturn : ∀ s a r b t, p c s = .ok a r → I r b t → I s (a ++ b) t) {s t : List τ} {a : List β}
    (h : many p c s = .ok a t) : I s a t := by
  obtain ⟨b, r, hok, hI⟩ := many_spec hprog hstop hturn (hp c) s
  rw [hok] at h
  cases h
  exact hI

theorem many1_noAbort {p : Parser τ β} (hprog : Progress p) (hp : NoAbort p) :
    NoAbort (many1 p) :=
  seq_noAbort hp (many_noAbort hprog hp)

theorem mapAttr_ne_abort {o : Outcome τ β} {f : List β → List γ} (ho : ∀ e, o ≠ .abort e)
    (e : Abort) : o.mapAttr f ≠ .abort e := by
  intro h
  cases o with
  | fail => cases h
  | abort e' => exact ho e' rfl
  | ok a r => cases h

theorem omitted_noAbort {p : Parser τ γ} (hp : NoAbort p) : NoAbort (omitted p : Parser τ β) :=
  fun c s e => mapAttr_ne_abort (hp c s) e

theorem item_noAbort {p : Parser τ β} (hp : NoAbort p) : NoAbort (item p) :=
  fun c s e => mapAttr_ne_abort (hp c s) e

theorem lexeme_noAbort {p : Parser τ β} (hp : NoAbort p) : NoAbort (lexeme p) :=
  fun c s e => hp c.off (c.skipOver s) e

theorem reskip_noAbort {p : Parser τ β} (hp : NoAbort p) : NoAbort (reskip p) :=
  fun c s e => hp c.on s e

/-! ## Character classes -/

theorem char_eq_ok {f : τ → Bool} {c : Context τ} {s r a : List τ}
    (h : char f c.off s = .ok a r) : ∃ x, s = x :: r ∧ f x = true ∧ a = [x] := by
  cases s with
  | nil => cases h
  | cons x t =>
    rw [char_cons] at h
    split at h
    · rename_i hx
      cases h
      exact ⟨x, rfl, hx, rfl⟩
    · cases h

/-- A repeated character class takes the longest run of the class. -/
theorem many_char (f : τ → Bool) (c : Context τ) (s : List τ) :
    many (char f) c.off s = .ok (s.takeWhile f) (s.dropWhile f) := by
  induction s with
  | nil => rw [many_eq (char_progress f)]; rfl
  | cons x r ih =>
    rw [many_eq (char_progress f), char_cons]
    cases hx : f x with
    | true => simp [ih, hx]
    | false => simp [hx]

/-- A repeated character class without attributes drops the longest run of the class. -/
theorem many_omitted_char (f : τ → Bool) (c : Context τ) (s : List τ) :
    many (omitted (char f) : Parser τ β) c.off s = .ok [] (s.dropWhile f) := by
  have hp : Progress (omitted (char f) : Parser τ β) := omitted_progress (char_progress f)
  induction s with
  | nil => rw [many_eq hp]; rfl
  | cons x r ih =>
    rw [many_eq hp]
    cases hx : f x with
    | true => simp [omitted, char_cons, hx, ih]
    | false => simp [omitted, char_cons, hx]

theorem many1_char_cons (f : τ → Bool) (c : Context τ) {x : τ} (r : List τ) (hx : f x = true) :
    many1 (char f) c.off (x :: r) = .ok (x :: r.takeWhile f) (r.dropWhile f) := by
  simp [many1, seq, char_cons, hx, many_char]

theorem many1_char_fail (f : τ → Bool) (c : Context τ) {s : List τ}
    (hs : ∀ x r, s = x :: r → f x = false) : many1 (char f) c.off s = .fail := by
  cases s with
  | nil => rfl
  | cons x r => simp [many1, seq, char_cons, hs x r rfl]

theorem many1_char_eq_ok {f : τ → Bool} {c : Context τ} {s r a : List τ}
    (h : many1 (char f) c.off s = .ok a r) :
    ∃ x t, s = x :: t ∧ f x = true ∧ a = x :: t.takeWhile f ∧ r = t.dropWhile f := by
  obtain ⟨a₁, r₁, a₂, h₁, h₂, rfl⟩ := seq_eq_ok h
  obtain ⟨x, rfl, hx, rfl⟩ := char_eq_ok h₁
  rw [many_char] at h₂
  cases h₂
  exact ⟨x, r₁, rfl, hx, rfl, rfl⟩

theorem many1_omitted_char_cons (f : τ → Bool) (c : Context τ) {x : τ} (r : List τ)
    (hx : f x = true) :
    many1 (omitted (char f) : Parser τ β) c.off (x :: r) = .ok [] (r.dropWhile f) := by
  have hone : (omitted (char f) : Parser τ β) c.off (x :: r) = .ok [] r := by
    simp [omitted, char_cons, hx]
  rw [many1, seq_ok hone, many_omitted_char, prepend_ok, List.append_nil]

end Peg

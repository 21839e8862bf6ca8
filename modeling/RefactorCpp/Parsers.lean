import RefactorCpp.CppIdentifier
import RefactorCpp.NameStyle.Grammar

/-!
# Parsers for C++ names

`utils/parsers.cpp`.  Its `try_parse` is the one of `namestyle.cpp`, and `isIdentifier` only asks
for the flag.

* `isIdentifier_iff` — an identifier with blanks behind it is accepted.
* `isIdentifier_exact_iff` — **on every other text the answer is right**.
* `funcdef_complete`, `funcdef_sound` — what the loop over `::name` reads.
* `parseFunctionDefinition_iff` — **the accepted texts are the function definitions**, and the
  error for every other text.
* `parseFunctionDefinition_name` — **the parsed name**, from which the qualification is lost.
-/

set_option autoImplicit false

namespace RefactorCpp

open Peg Runs

/-- The rule `identifier`. -/
def identifier : Parser Byte Byte :=
  lexeme (seq (alt (char isAlpha) (char fun c => c == 0x5F))
    (many (alt (char isAlnum) (char fun c => c == 0x5F))))

/-- The rule `funcdef`. -/
def funcdef : Parser Byte Byte := many1 (reskip (seq (lit (bytes "::")) identifier))

/-- A parsed definition; the qualification is not kept. -/
structure FuncDef where
  name : Str
  deriving DecidableEq, Repr

/-- `Parsers::parseFunctionDefinition`. -/
def parseFunctionDefinition (definition : Str) : Except StdException FuncDef :=
  let failed := .error (.runtimeError (bytes "function definition parse failed"))
  match phraseParse funcdef isSpace definition with
  | .ok name rest => if rest.isEmpty then .ok ⟨name⟩ else failed
  | .fail => failed
  -- not reached (`funcdef_noAbort`)
  | .abort _ => failed

/-- `Parsers::isIdentifier`. -/
def isIdentifier (value : Str) : Bool :=
  (tryParse value (noSkip (omitted identifier : Parser Byte Byte)) isSpace).1

/-! ## Identifiers -/

theorem identifier_off (k : Context Byte) (s : Str) :
    identifier k.off s =
      seq (char fun c => isAlpha c || c == 0x5F) (many (char isIdentifierChar)) k.off s := by
  unfold identifier
  rw [alt_char, alt_char, lexeme_off]
  rfl

theorem identifier_sound {k : Context Byte} {s r a : Str} (h : identifier k.off s = .ok a r) :
    s = a ++ r ∧ CppIdentifier a := by
  rw [identifier_off] at h
  obtain ⟨_, t, _, h₁, h₂, rfl⟩ := seq_eq_ok h
  obtain ⟨c, rfl, hc, rfl⟩ := char_eq_ok h₁
  rw [many_char] at h₂
  cases h₂
  exact ⟨by simp, c, _, rfl, hc, fun x hx => List.mem_takeWhile_imp hx⟩

theorem identifier_complete (k : Context Byte) {s r : Str} (hs : CppIdentifier s)
    (hr : startsIn isIdentifierChar r = false) : identifier k.off (s ++ r) = .ok s r := by
  obtain ⟨c, t, rfl, hc, ht⟩ := hs
  have hhead : char (fun c => isAlpha c || c == 0x5F) k.off (c :: (t ++ r)) = .ok [c] (t ++ r) := by
    rw [char_cons, if_pos hc]
  rw [identifier_off, List.cons_append, seq_ok hhead, many_char, takeWhile_run ht hr,
    dropWhile_run ht hr]
  rfl

theorem isIdentifierChar_of_isSpace {c : Byte} (h : isSpace c = true) :
    isIdentifierChar c = false := by
  have hne : c ≠ 0x5F := by
    rintro rfl
    revert h
    decide
  simp [isIdentifierChar, isAlnum_of_isSpace h, hne]

theorem startsIn_blanks {b : Str} (hb : ∀ x ∈ b, isSpace x = true) :
    startsIn isIdentifierChar b = false :=
  startsIn_of_forall fun x hx => isIdentifierChar_of_isSpace (hb x hx)

/-- **Blanks after an identifier are skipped**, in spite of `no_skip`. -/
theorem isIdentifier_iff (value : Str) :
    isIdentifier value = true ↔
      ∃ s b, value = s ++ b ∧ CppIdentifier s ∧ ∀ x ∈ b, isSpace x = true := by
  constructor
  · intro h
    obtain ⟨b, hparse, hb⟩ := tryParse_eq_true (Prod.ext h rfl)
    obtain ⟨s, hs, -⟩ := mapAttr_eq_ok hparse
    obtain ⟨rfl, hid⟩ := identifier_sound hs
    exact ⟨s, b, rfl, hid, hb⟩
  · rintro ⟨s, b, rfl, hs, hb⟩
    have hparse : (noSkip (omitted identifier) : Parser Byte Byte) ⟨isSpace, true⟩ (s ++ b) =
        .ok [] b := by
      unfold noSkip omitted
      rw [identifier_complete _ hs (startsIn_blanks hb)]
      rfl
    unfold isIdentifier
    rw [tryParse_of_ok hparse hb]

/-- An identifier with at least one blank behind it. -/
def IdentifierThenBlanks (value : Str) : Prop :=
  ∃ s b, value = s ++ b ∧ CppIdentifier s ∧ b ≠ [] ∧ ∀ x ∈ b, isSpace x = true

/-- **Exactly the identifiers with blanks behind them are taken for identifiers.** -/
theorem isIdentifier_exact_iff (value : Str) :
    (isIdentifier value = true ↔ CppIdentifier value) ↔ ¬ IdentifierThenBlanks value := by
  constructor
  · rintro hiff ⟨s, b, rfl, hs, hne, hb⟩
    have hid := hiff.1 ((isIdentifier_iff _).2 ⟨s, b, rfl, hs, hb⟩)
    obtain ⟨x, hx⟩ := List.exists_mem_of_ne_nil b hne
    have hchar := (cppIdentifier_iff.1 hid).2.1 x (List.mem_append_right s hx)
    rw [isIdentifierChar_of_isSpace (hb x hx)] at hchar
    cases hchar
  · intro hno
    rw [isIdentifier_iff]
    constructor
    · rintro ⟨s, b, rfl, hs, hb⟩
      cases b with
      | nil => rwa [List.append_nil]
      | cons x b => exact absurd ⟨s, x :: b, rfl, hs, List.cons_ne_nil x b, hb⟩ hno
    · intro hid
      exact ⟨value, [], by simp, hid, by simp⟩

/-- The blank at the end of `abc ` is not noticed. -/
theorem isIdentifier_abc_blank :
    ¬ ∀ value : Str, isIdentifier value = true ↔ CppIdentifier value := by
  intro hall
  have hid := (hall (bytes "abc ")).1 (by decide)
  have hchar := (cppIdentifier_iff.1 hid).2.1
  revert hchar
  decide

/-! ## Function definitions -/

/-- One `::name` with blanks in front of both parts. -/
structure Group where
  before : Str
  between : Str
  name : Str
  before_blank : ∀ x ∈ before, isSpace x = true
  between_blank : ∀ x ∈ between, isSpace x = true
  name_identifier : CppIdentifier name

/-- The group as it is written. -/
def Group.text (g : Group) : Str := g.before ++ (bytes "::" ++ (g.between ++ g.name))

/-- One or more groups, and blanks at the end. -/
def FunctionDefinition (s : Str) : Prop :=
  ∃ (gs : List Group) (b : Str), gs ≠ [] ∧ s = gs.flatMap Group.text ++ b ∧
    ∀ x ∈ b, isSpace x = true

/-- The parser for one group. -/
def group : Parser Byte Byte := reskip (seq (lit (bytes "::")) identifier)

/-- The context of the phrase parse. -/
def blanks : Context Byte := ⟨isSpace, true⟩

theorem identifier_skip (s : Str) :
    identifier blanks s = identifier blanks.off (s.dropWhile isSpace) := rfl

theorem group_sound {s r a : Str} (h : group blanks s = .ok a r) :
    ∃ g : Group, s = g.text ++ r ∧ a = g.name := by
  obtain ⟨_, t, _, h₁, h₂, rfl⟩ := seq_eq_ok h
  obtain ⟨hlit, rfl⟩ := lit_eq_ok h₁
  have hlit : s.dropWhile isSpace = bytes "::" ++ t := hlit
  have hname : identifier blanks.off (t.dropWhile isSpace) = .ok _ r := h₂
  obtain ⟨hdrop, hid⟩ := identifier_sound hname
  refine ⟨⟨s.takeWhile isSpace, t.takeWhile isSpace, _, fun x hx => List.mem_takeWhile_imp hx,
    fun x hx => List.mem_takeWhile_imp hx, hid⟩, ?_, rfl⟩
  calc s = s.takeWhile isSpace ++ (bytes "::" ++ (t.takeWhile isSpace ++ t.dropWhile isSpace)) := by
        rw [List.takeWhile_append_dropWhile, ← hlit, List.takeWhile_append_dropWhile]
    _ = _ := by
        rw [hdrop]
        simp [Group.text]

theorem CppIdentifier.startsIn_isSpace {s : Str} (hs : CppIdentifier s) (r : Str) :
    startsIn isSpace (s ++ r) = false := by
  obtain ⟨hne, hchar, -⟩ := cppIdentifier_iff.1 hs
  obtain ⟨c, t, rfl⟩ := List.exists_cons_of_ne_nil hne
  rw [List.cons_append, startsIn_cons, Bool.eq_false_iff]
  intro hc
  have := hchar c List.mem_cons_self
  rw [isIdentifierChar_of_isSpace hc] at this
  cases this

theorem group_complete (g : Group) {r : Str} (hr : startsIn isIdentifierChar r = false) :
    group blanks (g.text ++ r) = .ok g.name r := by
  have hlit : lit (bytes "::") blanks (g.text ++ r) =
      (.ok [] (g.between ++ (g.name ++ r)) : Outcome Byte Byte) := by
    apply lit_ok
    show (g.text ++ r).dropWhile isSpace = _
    unfold Group.text
    rw [List.append_assoc, dropWhile_run g.before_blank rfl, List.append_assoc, List.append_assoc]
  have hname : identifier blanks (g.between ++ (g.name ++ r)) = .ok g.name r := by
    rw [identifier_skip, dropWhile_run g.between_blank (g.name_identifier.startsIn_isSpace r)]
    exact identifier_complete blanks g.name_identifier hr
  show seq (lit (bytes "::")) identifier blanks (g.text ++ r) = _
  rw [seq_ok hlit, hname, prepend_ok, List.nil_append]

theorem group_fail {b : Str} (hb : ∀ x ∈ b, isSpace x = true) : group blanks b = .fail := by
  have hlit : lit (bytes "::") blanks b = (.fail : Outcome Byte Byte) := by
    have hdrop : blanks.skipOver b = [] := List.dropWhile_eq_nil_iff.2 hb
    unfold lit
    rw [hdrop]
    rfl
  exact seq_fail hlit

theorem identifier_nonGrowing : NonGrowing identifier := by
  unfold identifier
  rw [alt_char, alt_char]
  exact (lexeme_progress (seq_progress (char_progress _)
    (many_nonGrowing (char_progress _)))).nonGrowing

theorem identifier_noAbort : NoAbort identifier := by
  unfold identifier
  rw [alt_char, alt_char]
  exact lexeme_noAbort (seq_noAbort (char_noAbort _)
    (many_noAbort (char_progress _) (char_noAbort _)))

theorem group_progress : Progress group :=
  reskip_progress (seq_progress (lit_progress (by decide)) identifier_nonGrowing)

theorem group_noAbort : NoAbort group :=
  reskip_noAbort (seq_noAbort (lit_noAbort _) identifier_noAbort)

theorem funcdef_noAbort : NoAbort funcdef := many1_noAbort group_progress group_noAbort

theorem startsIn_groups (gs : List Group) {b : Str} (hb : ∀ x ∈ b, isSpace x = true) :
    startsIn isIdentifierChar (gs.flatMap Group.text ++ b) = false := by
  cases gs with
  | nil => exact startsIn_blanks hb
  | cons g gs =>
    have hbefore := startsIn_blanks g.before_blank
    rw [List.flatMap_cons, Group.text, List.append_assoc, List.append_assoc]
    cases hg : g.before with
    | nil => rfl
    | cons x t => rw [hg] at hbefore; exact hbefore

/-- **The loop over the groups reads them all**; induction on the groups. -/
theorem many_group (gs : List Group) {b : Str} (hb : ∀ x ∈ b, isSpace x = true) :
    many group blanks (gs.flatMap Group.text ++ b) = .ok (gs.flatMap Group.name) b := by
  induction gs with
  | nil =>
    rw [List.flatMap_nil, List.nil_append, many_eq group_progress, group_fail hb]
    rfl
  | cons g gs ih =>
    rw [List.flatMap_cons, List.flatMap_cons, List.append_assoc, many_eq group_progress,
      group_complete g (startsIn_groups gs hb)]
    simp only [ih, prepend_ok]

theorem funcdef_complete {gs : List Group} {b : Str} (hne : gs ≠ [])
    (hb : ∀ x ∈ b, isSpace x = true) :
    funcdef blanks (gs.flatMap Group.text ++ b) = .ok (gs.flatMap Group.name) b := by
  obtain ⟨g, gs, rfl⟩ := List.exists_cons_of_ne_nil hne
  show seq group (many group) blanks _ = _
  rw [List.flatMap_cons, List.flatMap_cons, List.append_assoc,
    seq_ok (group_complete g (startsIn_groups gs hb)), many_group gs hb, prepend_ok]

theorem funcdef_sound {s r a : Str} (h : funcdef blanks s = .ok a r) :
    ∃ gs : List Group, gs ≠ [] ∧ s = gs.flatMap Group.text ++ r ∧ a = gs.flatMap Group.name := by
  obtain ⟨_, t, _, h₁, h₂, rfl⟩ := seq_eq_ok h
  obtain ⟨g, rfl, rfl⟩ := group_sound h₁
  have hmany := many_induction group_progress group_noAbort
    (I := fun s a r => ∃ gs : List Group, s = gs.flatMap Group.text ++ r ∧
      a = gs.flatMap Group.name)
    (fun s _ => ⟨[], rfl, rfl⟩) ?_ h₂
  · obtain ⟨gs, rfl, rfl⟩ := hmany
    exact ⟨g :: gs, List.cons_ne_nil g gs, by simp, by simp⟩
  · rintro s a r b t hturn ⟨gs, rfl, rfl⟩
    obtain ⟨g, rfl, rfl⟩ := group_sound hturn
    exact ⟨g :: gs, by simp, by simp⟩

theorem parseFunctionDefinition_of_groups {gs : List Group} {b : Str} (hne : gs ≠ [])
    (hb : ∀ x ∈ b, isSpace x = true) :
    parseFunctionDefinition (gs.flatMap Group.text ++ b) = .ok ⟨gs.flatMap Group.name⟩ := by
  have hparse : funcdef ⟨isSpace, true⟩ (gs.flatMap Group.text ++ b) =
      .ok (gs.flatMap Group.name) b := funcdef_complete hne hb
  unfold parseFunctionDefinition phraseParse
  rw [hparse]
  simp [List.dropWhile_eq_nil_iff.2 hb]

/-- Without a full parse there is the one error. -/
theorem parseFunctionDefinition_cases (definition : Str) :
    (∃ f, parseFunctionDefinition definition = .ok f ∧ FunctionDefinition definition) ∨
    parseFunctionDefinition definition =
      .error (.runtimeError (bytes "function definition parse failed")) := by
  unfold parseFunctionDefinition phraseParse
  cases h : funcdef ⟨isSpace, true⟩ definition with
  | fail => exact .inr rfl
  | abort e => exact absurd h (funcdef_noAbort _ _ _)
  | ok name r =>
    cases hr : (r.dropWhile isSpace).isEmpty with
    | false => right; simp [hr]
    | true =>
      left
      obtain ⟨gs, hne, rfl, -⟩ := funcdef_sound h
      refine ⟨⟨name⟩, by simp [hr], gs, r, hne, rfl, ?_⟩
      exact List.dropWhile_eq_nil_iff.1 (List.isEmpty_iff.1 hr)

/-- **The accepted texts are the function definitions**; every other text gives the error. -/
theorem parseFunctionDefinition_iff (definition : Str) :
    ((∃ f, parseFunctionDefinition definition = .ok f) ↔ FunctionDefinition definition) ∧
    (¬ FunctionDefinition definition → parseFunctionDefinition definition =
      .error (.runtimeError (bytes "function definition parse failed"))) := by
  have hcomplete : FunctionDefinition definition →
      ∃ f, parseFunctionDefinition definition = .ok f := by
    rintro ⟨gs, b, hne, rfl, hb⟩
    exact ⟨_, parseFunctionDefinition_of_groups hne hb⟩
  rcases parseFunctionDefinition_cases definition with ⟨f, hok, hdef⟩ | herror
  · exact ⟨⟨fun _ => hdef, hcomplete⟩, fun hno => absurd hdef hno⟩
  · refine ⟨⟨?_, hcomplete⟩, fun _ => herror⟩
    rintro ⟨f, hok⟩
    rw [herror] at hok
    cases hok

example : parseFunctionDefinition (bytes " ::a :: b1\t") = .ok ⟨bytes "ab1"⟩ := by decide

/-! ## The parsed name -/

theorem filter_blanks {b : Str} (hb : ∀ x ∈ b, isSpace x = true) :
    b.filter isIdentifierChar = [] :=
  List.filter_eq_nil_iff.2 fun x hx => by simp [isIdentifierChar_of_isSpace (hb x hx)]

theorem Group.filter_text (g : Group) : g.text.filter isIdentifierChar = g.name := by
  have hcolons : (bytes "::").filter isIdentifierChar = [] := by decide
  rw [Group.text, List.filter_append, List.filter_append, List.filter_append,
    filter_blanks g.before_blank, filter_blanks g.between_blank, hcolons, List.nil_append,
    List.nil_append, List.nil_append, List.filter_eq_self]
  exact (cppIdentifier_iff.1 g.name_identifier).2.1

theorem filter_groups (gs : List Group) {b : Str} (hb : ∀ x ∈ b, isSpace x = true) :
    (gs.flatMap Group.text ++ b).filter isIdentifierChar = gs.flatMap Group.name := by
  rw [List.filter_append, filter_blanks hb, List.append_nil]
  induction gs with
  | nil => rfl
  | cons g gs ih =>
    rw [List.flatMap_cons, List.flatMap_cons, List.filter_append, ih, g.filter_text]

/-- The names of the groups run together to one identifier. -/
theorem cppIdentifier_groups {gs : List Group} (hne : gs ≠ []) :
    CppIdentifier (gs.flatMap Group.name) := by
  obtain ⟨g, gs, rfl⟩ := List.exists_cons_of_ne_nil hne
  obtain ⟨c, r, hname, hc, hr⟩ := g.name_identifier
  refine ⟨c, r ++ gs.flatMap Group.name, by rw [List.flatMap_cons, hname, List.cons_append], hc, ?_⟩
  intro x hx
  rcases List.mem_append.1 hx with hx | hx
  · exact hr x hx
  · obtain ⟨g', -, hx⟩ := List.mem_flatMap.1 hx
    exact (cppIdentifier_iff.1 g'.name_identifier).2.1 x hx

theorem parseFunctionDefinition_of_identifier {name : Str} (h : CppIdentifier name) :
    parseFunctionDefinition (bytes "::" ++ name) = .ok ⟨name⟩ := by
  have hgroup := parseFunctionDefinition_of_groups (b := [])
    (List.cons_ne_nil (⟨[], [], name, by simp, by simp, h⟩ : Group) []) (by simp)
  simpa [Group.text] using hgroup

/-- **The parsed name** consists of the identifier characters of the text, so the qualification is
    lost.  It is an identifier and stands for the same function definition. -/
theorem parseFunctionDefinition_name (definition : Str) (f : FuncDef) :
    (parseFunctionDefinition definition = .ok f ↔
      FunctionDefinition definition ∧ f.name = definition.filter isIdentifierChar) ∧
    (parseFunctionDefinition definition = .ok f →
      CppIdentifier f.name ∧ parseFunctionDefinition (bytes "::" ++ f.name) = .ok f) := by
  have hgroups : parseFunctionDefinition definition = .ok f → ∃ (gs : List Group) (b : Str),
      gs ≠ [] ∧ definition = gs.flatMap Group.text ++ b ∧ (∀ x ∈ b, isSpace x = true) ∧
        f.name = gs.flatMap Group.name := by
    intro hok
    rcases parseFunctionDefinition_cases definition with ⟨f', -, gs, b, hne, rfl, hb⟩ | herror
    · rw [parseFunctionDefinition_of_groups hne hb] at hok
      cases hok
      exact ⟨gs, b, hne, rfl, hb, rfl⟩
    · rw [herror] at hok
      cases hok
  constructor
  · constructor
    · intro hok
      obtain ⟨gs, b, hne, rfl, hb, hname⟩ := hgroups hok
      exact ⟨⟨gs, b, hne, rfl, hb⟩, by rw [hname, filter_groups gs hb]⟩
    · rintro ⟨⟨gs, b, hne, rfl, hb⟩, hname⟩
      rw [filter_groups gs hb] at hname
      rw [parseFunctionDefinition_of_groups hne hb, ← hname]
  · intro hok
    obtain ⟨gs, b, hne, -, -, hname⟩ := hgroups hok
    have hid : CppIdentifier f.name := hname ▸ cppIdentifier_groups hne
    exact ⟨hid, parseFunctionDefinition_of_identifier hid⟩

end RefactorCpp

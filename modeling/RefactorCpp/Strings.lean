import RefactorCpp.Refactoring.Args
import RefactorCpp.Support.Separators

/-!
# Splitting strings

Both overloads of `Support::split` in `utils/strings.h`.  The loop is the same, and a separator
string may be empty, so it is not clear that the loop ends: here it gets a number of rounds.

* `splitLoop_char` — the overload for a character is the `split` that always ends.
* `splitLoop_eq_foldlM` — the function is called on the pieces in order.
* `splitLoop_diverges` — **with an empty separator the rest never gets shorter**.
* `splitsLosslessly_iff` — **when the loop ends and no text is lost**.
-/

set_option autoImplicit false

namespace RefactorCpp

open Separators

variable {σ : Type}

/-- The separator of each overload. -/
inductive Separator where
  | char (sep : Byte)
  | string (seps : Str)
  deriving DecidableEq, Repr

/-- The separator as a string. -/
def Separator.text : Separator → Str
  | .char sep => [sep]
  | .string seps => seps

/-- `StringRef::split` for a character and for a string. -/
def Separator.cut : Separator → Str → Str × Str
  | .char sep => Fields.cut sep
  | .string seps => cutAt seps

/-- `Support::split`: the loop, or `none` if it is still running after so many rounds.  The state
    is what `func` captures. -/
def splitLoop (sep : Separator) (func : σ → Str → Except StdException σ) :
    Nat → Str → σ → Option (Except StdException σ)
  | 0, _, _ => none
  | n + 1, string, state =>
    if string = [] then some (.ok state) else
      match func state (sep.cut string).1 with
      | .error e => some (.error e)
      | .ok state => splitLoop sep func n (sep.cut string).2 state

theorem Separator.cutsAt_cut (sep : Separator) : CutsAt sep.text sep.cut := by
  cases sep with
  | char sep => exact cut_cutsAt sep
  | string seps => exact cutAt_cutsAt seps

/-! ## Runs of the loop -/

/-- The function is called on the pieces in order, until it throws. -/
theorem splitLoop_eq_foldlM (sep : Separator) (func : σ → Str → Except StdException σ) {n : Nat}
    {string : Str} {ps : List Str} (h : piecesLoop sep.cut n string = some ps) (state : σ) :
    splitLoop sep func n string state = some (ps.foldlM func state) := by
  induction n generalizing string ps state with
  | zero => cases h
  | succ n ih =>
    rw [piecesLoop] at h
    rw [splitLoop]
    by_cases hs : string = []
    · rw [if_pos hs] at h ⊢
      cases h
      rfl
    · rw [if_neg hs, Option.map_eq_some_iff] at h
      obtain ⟨rest, hrest, rfl⟩ := h
      rw [if_neg hs, List.foldlM_cons]
      cases func state (sep.cut string).1 with
      | error e => rfl
      | ok next => exact ih hrest next

theorem splitLoop_of_cut {seps : Separator} {sep : Byte} (hcut : seps.cut = Fields.cut sep)
    (func : σ → Str → Except StdException σ) {n : Nat} {string : Str} (hlen : string.length < n)
    (state : σ) : splitLoop seps func n string state = some (split string sep func state) := by
  rw [split_eq_foldlM]
  apply splitLoop_eq_foldlM
  rw [hcut]
  exact piecesLoop_cut sep hlen

/-- The overload for a character needs no bound. -/
theorem splitLoop_char (sep : Byte) (func : σ → Str → Except StdException σ) {n : Nat}
    {string : Str} (hlen : string.length < n) (state : σ) :
    splitLoop (.char sep) func n string state = some (split string sep func state) :=
  splitLoop_of_cut rfl func hlen state

/-- A separator string of one character is that character. -/
theorem splitLoop_string_singleton (sep : Byte) (func : σ → Str → Except StdException σ) {n : Nat}
    {string : Str} (hlen : string.length < n) (state : σ) :
    splitLoop (.string [sep]) func n string state = some (split string sep func state) := by
  have hcut : Separator.cut (.string [sep]) = Fields.cut sep := cutAt_singleton sep
  exact splitLoop_of_cut hcut func hlen state

/-- **The empty separator**: every round cuts off nothing, so only the function can end the loop. -/
theorem splitLoop_diverges {func : σ → Str → Except StdException σ}
    (hfunc : ∀ state, ∃ next, func state [] = .ok next) {string : Str} (hne : string ≠ [])
    (n : Nat) (state : σ) : splitLoop (.string []) func n string state = none := by
  induction n generalizing state with
  | zero => rfl
  | succ n ih =>
    obtain ⟨next, hnext⟩ := hfunc state
    have hcut : Separator.cut (.string []) string = ([], string) := cutAt_nil string
    rw [splitLoop, if_neg hne, hcut, hnext]
    exact ih next

/-! ## No text is lost -/

/-- What a run of the loop on `string` calls the function on. -/
structure LosslessPieces (sep : Separator) (string : Str) (ps : List Str) : Prop where
  /-- The loop ends after the function was called on the pieces in order. -/
  ends : ∃ n, ∀ {σ : Type} (func : σ → Str → Except StdException σ) (state : σ),
    splitLoop sep func n string state = some (ps.foldlM func state)
  separated : ∀ p ∈ ps, ¬ sep.text <:+: p
  /-- One separator at the end may be dropped. -/
  joined : sep.text.intercalate ps = string ∨ sep.text.intercalate ps ++ sep.text = string

/-- The loop ends, and the pieces give the string back. -/
def SplitsLosslessly (sep : Separator) (string : Str) : Prop := ∃ ps, LosslessPieces sep string ps

theorem splitsLosslessly_of_text_ne_nil {sep : Separator} (hne : sep.text ≠ []) (string : Str) :
    SplitsLosslessly sep string := by
  obtain ⟨ps, hrun, -, hfree, hjoin⟩ :=
    piecesLoop_lossless sep.cutsAt_cut hne (Nat.lt_succ_self string.length)
  refine ⟨ps, ⟨string.length + 1, ?_⟩, hfree, hjoin⟩
  intro σ func state
  exact splitLoop_eq_foldlM sep func hrun state

theorem splitsLosslessly_nil (sep : Separator) : SplitsLosslessly sep [] := by
  refine ⟨[], ⟨1, ?_⟩, ?_, .inl rfl⟩
  · intro σ func state
    rfl
  · simp

theorem not_splitsLosslessly_of_empty {string : Str} (hne : string ≠ []) :
    ¬ SplitsLosslessly (.string []) string := by
  rintro ⟨ps, ⟨n, hrun⟩, -, -⟩
  have hends := hrun (fun _ _ => .ok ()) ()
  rw [splitLoop_diverges (fun _ => ⟨(), rfl⟩) hne] at hends
  cases hends

/-- **The loop ends and loses no text** unless a string is split at nothing. -/
theorem splitsLosslessly_iff (sep : Separator) (string : Str) :
    SplitsLosslessly sep string ↔ sep.text ≠ [] ∨ string = [] := by
  constructor
  · intro h
    by_contra hno
    obtain ⟨htext, hne⟩ := not_or.1 hno
    have hsep : sep = .string [] := by
      cases sep with
      | char sep => exact absurd (List.cons_ne_nil sep []) htext
      | string seps => rw [show seps = [] from not_not.1 htext]
    rw [hsep] at h
    exact not_splitsLosslessly_of_empty hne h
  · rintro (hne | rfl)
    · exact splitsLosslessly_of_text_ne_nil hne string
    · exact splitsLosslessly_nil sep

/-- `split("a", "", func)` calls `func("")` forever. -/
theorem not_splitsLosslessly_empty_separator :
    ¬ SplitsLosslessly (.string (bytes "")) (bytes "a") :=
  not_splitsLosslessly_of_empty (by decide)

end RefactorCpp

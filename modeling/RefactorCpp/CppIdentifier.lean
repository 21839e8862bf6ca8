import RefactorCpp.Support.Runs
import RefactorCpp.Text

/-!
# C++ identifiers

* `cppIdentifier_iff` — an identifier is a non-empty text of identifier characters that does not
  begin with a digit.
-/

set_option autoImplicit false

namespace RefactorCpp

open Runs

/-- `[A-Za-z0-9_]`. -/
def isIdentifierChar (c : Byte) : Bool := isAlnum c || c == 0x5F

/-- `[A-Za-z_][A-Za-z0-9_]*`. -/
def CppIdentifier (s : Str) : Prop :=
  ∃ c r, s = c :: r ∧ (isAlpha c || c == 0x5F) = true ∧ ∀ x ∈ r, isIdentifierChar x = true

theorem cppIdentifier_iff {s : Str} :
    CppIdentifier s ↔
      s ≠ [] ∧ (∀ x ∈ s, isIdentifierChar x = true) ∧ startsIn isDigit s = false := by
  constructor
  · rintro ⟨c, r, rfl, hc, hr⟩
    have hhead : isIdentifierChar c = true ∧ isDigit c = false := by
      rcases Bool.or_eq_true_iff.1 hc with hc | hc
      · exact ⟨by simp [isIdentifierChar, isAlnum, hc], isDigit_of_isAlpha hc⟩
      · obtain rfl := beq_iff_eq.1 hc
        exact ⟨by decide, by decide⟩
    refine ⟨by simp, ?_, hhead.2⟩
    intro x hx
    rcases List.mem_cons.1 hx with rfl | hx
    · exact hhead.1
    · exact hr x hx
  · rintro ⟨hne, hs, hd⟩
    obtain ⟨c, r, rfl⟩ := List.exists_cons_of_ne_nil hne
    refine ⟨c, r, rfl, ?_, fun x hx => hs x (List.mem_cons_of_mem _ hx)⟩
    have hc := hs c List.mem_cons_self
    rw [startsIn_cons] at hd
    simpa [isIdentifierChar, isAlnum, hd] using hc

end RefactorCpp

import Mathlib.Data.List.Basic

/-!
# Histories of a state machine

Over arbitrary states and events, with a run as `List.foldl`:

* `foldl_iff` — **where a fact comes from**: if a fact holds after a step exactly if it held
  before or this step brought it about, then it holds after a run exactly if it held at the
  start or some step of the run brought it about.
* `foldl_filterMap` — a part of the state that only collects values from the events.
-/

set_option autoImplicit false

namespace Histories

variable {σ ε α : Type} {step : σ → ε → σ}

/-- **Where a fact comes from**; induction on the run, with every start. -/
theorem foldl_iff {P : σ → Prop} {Q : σ → ε → Prop} (h : ∀ s e, P (step s e) ↔ P s ∨ Q s e)
    (es : List ε) (s : σ) :
    P (es.foldl step s) ↔ P s ∨ ∃ pre e post, es = pre ++ e :: post ∧ Q (pre.foldl step s) e := by
  induction es generalizing s with
  | nil => simp
  | cons e es ih =>
    rw [List.foldl_cons, ih, h, or_assoc]
    refine or_congr_right ⟨?_, ?_⟩
    · rintro (hq | ⟨pre, e', post, rfl, hq⟩)
      · exact ⟨[], e, es, rfl, hq⟩
      · exact ⟨e :: pre, e', post, rfl, hq⟩
    · rintro ⟨pre, e', post, heq, hq⟩
      cases pre with
      | nil =>
        obtain ⟨rfl, rfl⟩ := List.cons.inj heq
        exact .inl hq
      | cons e₀ pre =>
        obtain ⟨rfl, rfl⟩ := List.cons.inj heq
        exact .inr ⟨pre, e', post, rfl, hq⟩

/-- A part of the state that collects what some events carry. -/
theorem foldl_filterMap {f : σ → List α} {g : ε → Option α}
    (h : ∀ s e, f (step s e) = f s ++ (g e).toList) (es : List ε) (s : σ) :
    f (es.foldl step s) = f s ++ es.filterMap g := by
  induction es generalizing s with
  | nil => simp
  | cons e es ih =>
    rw [List.foldl_cons, ih, h, List.append_assoc, List.filterMap_cons]
    cases g e <;> rfl

end Histories

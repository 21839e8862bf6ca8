import Mathlib.Data.List.Basic

/-!
# Chains of receivers

Over arbitrary receivers, events and exceptions.  A chain passes an event to its receivers in
order until one of them throws, and new receivers join at the end.

* `foldl_feed_cons` — the first receiver gets every event, and the others form a chain that gets
  the events from which it returns.
* `foldl_feed_join` — **what a receiver gets**: the later events from which all the receivers
  before it return.
-/

set_option autoImplicit false

namespace Chains

variable {ρ ε ω : Type} (call : ρ → ε → Option ω × ρ)

/-- The exception, if there is one, and the receivers afterwards. -/
def offer (e : ε) : List ρ → Option ω × List ρ
  | [] => (none, [])
  | x :: xs =>
    match call x e with
    | (some w, x') => (some w, x' :: xs)
    | (none, x') => ((offer e xs).1, x' :: (offer e xs).2)

/-- What happens to a chain. -/
inductive Input (ρ ε : Type) where
  | join (x : ρ)
  | event (e : ε)

/-- The receivers after one input. -/
def feed (xs : List ρ) : Input ρ ε → List ρ
  | .join x => xs ++ [x]
  | .event e => (offer call e xs).2

/-- The event of an input. -/
def Input.event? : Input ρ ε → Option ε
  | .join _ => none
  | .event e => some e

/-- The receiver of an input. -/
def Input.join? : Input ρ ε → Option ρ
  | .join x => some x
  | .event _ => none

/-! ## One receiver -/

/-- A receiver after it got the events, its exceptions being caught. -/
def after (x : ρ) (es : List ε) : ρ := es.foldl (fun x e => (call x e).2) x

/-- The events from which a receiver returns. -/
def returned (x : ρ) : List ε → List ε
  | [] => []
  | e :: es =>
    match call x e with
    | (some _, x') => returned x' es
    | (none, x') => e :: returned x' es

/-- The inputs without the events on which a receiver throws. -/
def passed (x : ρ) : List (Input ρ ε) → List (Input ρ ε)
  | [] => []
  | .join y :: is => .join y :: passed x is
  | .event e :: is =>
    match call x e with
    | (some _, x') => passed x' is
    | (none, x') => .event e :: passed x' is

/-- The events that get past all the receivers. -/
def through (xs : List ρ) (es : List ε) : List ε := xs.foldl (fun es x => returned call x es) es

variable {call}

theorem events_passed (x : ρ) (is : List (Input ρ ε)) :
    (passed call x is).filterMap Input.event? = returned call x (is.filterMap Input.event?) := by
  induction is generalizing x with
  | nil => rfl
  | cons i is ih =>
    cases i with
    | join y => exact ih x
    | event e =>
      show (passed call x (.event e :: is)).filterMap Input.event? =
        returned call x (e :: is.filterMap Input.event?)
      rw [passed, returned]
      cases call x e with
      | mk w x' =>
        cases w with
        | none => exact congrArg (e :: ·) (ih x')
        | some w => exact ih x'

/-! ## The chain -/

/-- **The first receiver and the others**; induction on the inputs. -/
theorem foldl_feed_cons (x : ρ) (xs : List ρ) (is : List (Input ρ ε)) :
    is.foldl (feed call) (x :: xs) =
      after call x (is.filterMap Input.event?) :: (passed call x is).foldl (feed call) xs := by
  induction is generalizing x xs with
  | nil => rfl
  | cons i is ih =>
    rw [List.foldl_cons]
    cases i with
    | join y =>
      rw [feed, List.cons_append, ih]
      rfl
    | event e =>
      show is.foldl (feed call) (offer call e (x :: xs)).2 =
        after call (call x e).2 (is.filterMap Input.event?) :: _
      rw [offer, passed]
      cases call x e with
      | mk w x' =>
        cases w with
        | none => exact ih x' (offer call e xs).2
        | some w => exact ih x' xs

/-- **What a receiver gets** that joins a chain; induction on the receivers before it. -/
theorem foldl_feed_join (xs : List ρ) (x : ρ) (is : List (Input ρ ε)) :
    (is.foldl (feed call) (xs ++ [x]))[xs.length]? =
      some (after call x (through call xs (is.filterMap Input.event?))) := by
  induction xs generalizing is with
  | nil =>
    rw [List.nil_append, foldl_feed_cons]
    rfl
  | cons y ys ih =>
    rw [List.cons_append, foldl_feed_cons, List.length_cons, List.getElem?_cons_succ, ih,
      events_passed]
    rfl

theorem length_offer (e : ε) (xs : List ρ) : (offer call e xs).2.length = xs.length := by
  induction xs with
  | nil => rfl
  | cons x xs ih =>
    rw [offer]
    cases call x e with
    | mk w x' =>
      cases w with
      | none => exact congrArg Nat.succ ih
      | some w => rfl

/-- One receiver for each that joins. -/
theorem length_foldl_feed (xs : List ρ) (is : List (Input ρ ε)) :
    (is.foldl (feed call) xs).length = xs.length + (is.filterMap Input.join?).length := by
  induction is generalizing xs with
  | nil => rfl
  | cons i is ih =>
    rw [List.foldl_cons, ih]
    cases i with
    | join y =>
      rw [feed, List.length_append, List.length_singleton, Nat.add_assoc, Nat.add_comm 1]
      rfl
    | event e =>
      rw [feed, length_offer]
      rfl

end Chains

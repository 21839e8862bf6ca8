import RefactorCpp.Support.Chains
import RefactorCpp.Text

/-!
# Hooks

`HookRegistry` of `hook.cpp`: hooks are registered one after the other, and every file move runs
them in this order.  A hook may throw, and then the hooks behind it do not hear of the move.

* `run_eq_feed` — a run of the registry is a run of a chain of receivers.
* `hooks_run` — **what each hook hears**, in any order of registrations and moves.
-/

set_option autoImplicit false

namespace RefactorCpp

open Chains

/-- A hook with what its object holds.  Its exceptions may be of any type. -/
structure Hook (σ ε : Type) where
  state : σ
  onFileMoved : Str → Str → σ → Option ε × σ

variable {σ ε : Type}

/-- A call of the virtual method: the exception and the object afterwards. -/
def Hook.call (hook : Hook σ ε) (move : Str × Str) : Option ε × Hook σ ε :=
  let result := hook.onFileMoved move.1 move.2 hook.state
  (result.1, { hook with state := result.2 })

/-- `class HookRegistry`. -/
structure HookRegistry (σ ε : Type) where
  callbacks : List (Hook σ ε) := []

namespace HookRegistry

/-- `HookRegistry::size`. -/
def size (registry : HookRegistry σ ε) : Nat := registry.callbacks.length

/-- `none` is the null pointer. -/
def registerHook (registry : HookRegistry σ ε) (callback : Option (Hook σ ε)) :
    Except StdException (HookRegistry σ ε) :=
  match callback with
  | none => .error (.invalidArgument (bytes "callback"))
  | some callback => .ok ⟨registry.callbacks ++ [callback]⟩

/-- The loop of `onFileMoved`, which an exception leaves. -/
def runCallbacks (oldName newName : Str) : List (Hook σ ε) → Option ε × List (Hook σ ε)
  | [] => (none, [])
  | callback :: callbacks =>
    match callback.call (oldName, newName) with
    | (some e, callback) => (some e, callback :: callbacks)
    | (none, callback) =>
      let (e, callbacks) := runCallbacks oldName newName callbacks
      (e, callback :: callbacks)

/-- `HookRegistry::onFileMoved`. -/
def onFileMoved (registry : HookRegistry σ ε) (oldName newName : Str) :
    Option ε × HookRegistry σ ε :=
  let (e, callbacks) := runCallbacks oldName newName registry.callbacks
  (e, ⟨callbacks⟩)

end HookRegistry

/-! ## Runs -/

/-- A call of one of the two methods. -/
inductive HookCall (σ ε : Type) where
  | registerHook (callback : Option (Hook σ ε))
  | onFileMoved (oldName newName : Str)

/-- The registry after a call, whose exception the caller catches. -/
def HookRegistry.step (registry : HookRegistry σ ε) : HookCall σ ε → HookRegistry σ ε
  | .registerHook callback =>
    match registry.registerHook callback with
    | .error _ => registry
    | .ok registry => registry
  | .onFileMoved oldName newName => (registry.onFileMoved oldName newName).2

/-- Calls, one after the other. -/
def HookRegistry.run (registry : HookRegistry σ ε) (calls : List (HookCall σ ε)) :
    HookRegistry σ ε :=
  calls.foldl HookRegistry.step registry

/-- A call as the input of a chain; a null pointer is none. -/
def HookCall.input? : HookCall σ ε → Option (Input (Hook σ ε) (Str × Str))
  | .registerHook callback => callback.map .join
  | .onFileMoved oldName newName => some (.event (oldName, newName))

/-- The hooks that the calls register. -/
def registered (calls : List (HookCall σ ε)) : List (Hook σ ε) :=
  (calls.filterMap HookCall.input?).filterMap Input.join?

/-- The file moves among the calls. -/
def moves (calls : List (HookCall σ ε)) : List (Str × Str) :=
  (calls.filterMap HookCall.input?).filterMap Input.event?

theorem runCallbacks_eq_offer (oldName newName : Str) (callbacks : List (Hook σ ε)) :
    HookRegistry.runCallbacks oldName newName callbacks =
      offer Hook.call (oldName, newName) callbacks := by
  induction callbacks with
  | nil => rfl
  | cons callback callbacks ih =>
    rw [HookRegistry.runCallbacks, offer, ih]
    cases callback.call (oldName, newName) with
    | mk e callback => cases e <;> rfl

/-- **A run of the registry is a run of a chain of receivers.** -/
theorem run_eq_feed (registry : HookRegistry σ ε) (calls : List (HookCall σ ε)) :
    (registry.run calls).callbacks =
      (calls.filterMap HookCall.input?).foldl (feed Hook.call) registry.callbacks := by
  induction calls generalizing registry with
  | nil => rfl
  | cons call calls ih =>
    show ((registry.step call).run calls).callbacks = _
    rw [ih, List.filterMap_cons]
    cases call with
    | registerHook callback => cases callback <;> rfl
    | onFileMoved oldName newName =>
      show (calls.filterMap HookCall.input?).foldl (feed Hook.call)
        (HookRegistry.runCallbacks oldName newName registry.callbacks).2 = _
      rw [runCallbacks_eq_offer]
      rfl

/-- **What each hook hears**, in any order of registrations and moves: the later moves from which
    all the hooks before it return.  A registration with a null pointer changes nothing. -/
theorem hooks_run (registry : HookRegistry σ ε) (earlier later : List (HookCall σ ε))
    (hook : Hook σ ε) :
    (registry.run (earlier ++ .registerHook (some hook) :: later)).callbacks[
        (registry.run earlier).size]? =
      some (after Hook.call hook
        (through Hook.call (registry.run earlier).callbacks (moves later))) ∧
    (registry.run earlier).size = registry.size + (registered earlier).length := by
  constructor
  · have hrun : registry.run (earlier ++ .registerHook (some hook) :: later) =
        HookRegistry.run ⟨(registry.run earlier).callbacks ++ [hook]⟩ later := by
      unfold HookRegistry.run
      rw [List.foldl_append, List.foldl_cons]
      rfl
    rw [hrun, run_eq_feed]
    exact foldl_feed_join _ hook _
  · unfold HookRegistry.size
    rw [run_eq_feed, length_foldl_feed]
    rfl

end RefactorCpp

import RefactorCpp.Refactoring.Task
import RefactorCpp.Support.Histories

/-!
# Sessions of a task

`RefactoringTask` is an object with three methods, and its callers may use them in any order and
as often as they like.

* `TaskCall`, `Session.step` — the calls, and what a session keeps of them; every tool run has an
  outcome of its own.
* `mem_recorded_iff` — what is recorded at the end was recorded by some run, with the refactorings
  added before it.
* `session_edits` — **the edit list after any session**: it only grows, and saving forgets nothing.
* `session_written` — **the files that any session writes**.
-/

set_option autoImplicit false

namespace RefactorCpp

open Histories SortedSet

/-- A call of one of the methods.  A run comes with the outcome of the tool. -/
inductive TaskCall where
  | addRefactoring (refactoring : RenameFunction)
  | run (toolRun : List RenameFunction → Int × List TranslationUnit)
  | save

/-- The task, and what it has written so far. -/
structure Session where
  task : RefactoringTask := {}
  effects : Effects := {}
  deriving DecidableEq, Repr

/-- A session after one more call. -/
def Session.step (frontend : Frontend) (session : Session) : TaskCall → Session
  | .addRefactoring refactoring =>
    { session with task := session.task.addRefactoring refactoring }
  | .run toolRun =>
    { session with task := (session.task.run { frontend with toolRun := toolRun }).2 }
  | .save => { session with effects := (session.task.save frontend session.effects).2 }

/-- A session from the constructor on. -/
def session (frontend : Frontend) (calls : List TaskCall) : Session :=
  calls.foldl (Session.step frontend) {}

/-- The refactoring that a call adds. -/
def TaskCall.refactoring? : TaskCall → Option RenameFunction
  | .addRefactoring refactoring => some refactoring
  | .run _ => none
  | .save => none

/-- The refactorings that are added by the calls, in order. -/
def added (calls : List TaskCall) : List RenameFunction := calls.filterMap TaskCall.refactoring?

variable (frontend : Frontend)

theorem session_actions (calls : List TaskCall) :
    (session frontend calls).task.actions = added calls := by
  have hstep : ∀ (s : Session) (call : TaskCall), (s.step frontend call).task.actions =
      s.task.actions ++ (call.refactoring?).toList := by
    intro s call
    cases call with
    | addRefactoring refactoring => rfl
    | run toolRun => exact (List.append_nil _).symm
    | save => exact (List.append_nil _).symm
  exact foldl_filterMap (f := fun s : Session => s.task.actions) hstep calls {}

/-! ## What is recorded -/

/-- **A replacement is recorded** if some run recorded it, with the refactorings added before. -/
theorem mem_recorded_iff (calls : List TaskCall) (r : Replacement) :
    r ∈ (session frontend calls).task.context.recorded ↔
      ∃ pre toolRun post, calls = pre ++ .run toolRun :: post ∧
        r ∈ recordedBy (toolRun (added pre)).2 := by
  have hstep : ∀ (s : Session) (call : TaskCall),
      r ∈ (s.step frontend call).task.context.recorded ↔ r ∈ s.task.context.recorded ∨
        ∃ toolRun, call = .run toolRun ∧ r ∈ recordedBy (toolRun s.task.actions).2 := by
    intro s call
    cases call with
    | addRefactoring refactoring =>
      refine ⟨.inl, ?_⟩
      rintro (h | ⟨_, hcall, -⟩)
      · exact h
      · cases hcall
    | run toolRun =>
      show r ∈ (runTool s.task.context (toolRun s.task.actions).2).recorded ↔ _
      rw [recorded_runTool, List.mem_append]
      refine or_congr_right ⟨fun h => ⟨toolRun, rfl, h⟩, ?_⟩
      rintro ⟨_, hcall, h⟩
      cases hcall
      exact h
    | save =>
      refine ⟨.inl, ?_⟩
      rintro (h | ⟨_, hcall, -⟩)
      · exact h
      · cases hcall
  have hrun := foldl_iff (P := fun s : Session => r ∈ s.task.context.recorded) hstep calls {}
  refine hrun.trans ⟨?_, ?_⟩
  · rintro (h | ⟨pre, _, post, hcalls, toolRun, rfl, h⟩)
    · cases h
    · exact ⟨pre, toolRun, post, hcalls, session_actions frontend pre ▸ h⟩
  · rintro ⟨pre, toolRun, post, hcalls, h⟩
    exact .inr ⟨pre, _, post, hcalls, toolRun, rfl, (session_actions frontend pre).symm ▸ h⟩

theorem mem_recorded_append {calls more : List TaskCall} {r : Replacement}
    (h : r ∈ (session frontend calls).task.context.recorded) :
    r ∈ (session frontend (calls ++ more)).task.context.recorded := by
  rw [mem_recorded_iff] at h ⊢
  obtain ⟨pre, toolRun, post, rfl, hr⟩ := h
  exact ⟨pre, toolRun, post ++ more, by simp, hr⟩

/-! ## The edit list -/

section EditList

variable [IsStrictTotalOrder Replacement frontend.less]

theorem enumerates_replacements (task : RefactoringTask) :
    Enumerates frontend.less {r | r ∈ task.context.recorded} (task.replacements frontend) :=
  deduplicate_enumerates frontend.less task.context.recorded

/-- **The edit list after any session**: it has the replacements of all runs so far, each run with
    the refactorings added before it, once and in increasing order.  Later calls insert edits
    and remove none, and without another run they change nothing: saving forgets nothing. -/
theorem session_edits (calls : List TaskCall) :
    ((session frontend calls).task.replacements frontend).Pairwise frontend.less ∧
    (∀ r, r ∈ (session frontend calls).task.replacements frontend ↔
      ∃ pre toolRun post, calls = pre ++ .run toolRun :: post ∧
        r ∈ recordedBy (toolRun (added pre)).2) ∧
    (∀ more, ((session frontend calls).task.replacements frontend).Sublist
      ((session frontend (calls ++ more)).task.replacements frontend)) ∧
    ∀ more, (∀ toolRun, .run toolRun ∉ more) →
      (session frontend (calls ++ more)).task.replacements frontend =
        (session frontend calls).task.replacements frontend := by
  have henum := enumerates_replacements frontend (session frontend calls).task
  have hmem := fun r => (henum.mem_iff r).trans (mem_recorded_iff frontend calls r)
  refine ⟨henum.increasing, hmem, fun more => ?_, fun more hmore => ?_⟩
  · exact henum.sublist (enumerates_replacements frontend _) fun r =>
      mem_recorded_append frontend
  · refine (enumerates_replacements frontend _).unique ⟨henum.increasing, fun r => ?_⟩
    refine ⟨fun h => mem_recorded_append frontend ((henum.mem_iff r).1 h), fun h => ?_⟩
    -- the run that recorded it is not one of the later calls
    obtain ⟨pre, toolRun, post, heq, hr⟩ := (mem_recorded_iff frontend (calls ++ more) r).1 h
    rcases Runs.append_eq_cons heq with ⟨pre', -, hmore'⟩ | ⟨post', hcalls, -⟩
    · exact absurd (by simp [hmore']) (hmore toolRun)
    · exact (hmem r).2 ⟨pre, toolRun, post', hcalls, hr⟩

end EditList

/-- Everything can be applied and saved. -/
def plainFrontend : Frontend where
  less := Replacement.less
  decidableLess := inferInstance
  toolRun _ := (0, [])
  applies _ := true
  rewriteBuffer := Patches.apply
  saves _ := true
  toString r := r.replacementText

instance : IsStrictTotalOrder Replacement plainFrontend.less :=
  inferInstanceAs (IsStrictTotalOrder Replacement Replacement.less)

/-- A run that records one replacement. -/
def oneEdit : List RenameFunction → Int × List TranslationUnit :=
  fun _ => (0, [[⟨.safe, [⟨bytes "a.c", 4, 1, bytes "g"⟩]⟩]])

theorem session_edits_save_twice :
    (session plainFrontend ([.run oneEdit] ++ [.save, .save])).task.replacements plainFrontend =
      (session plainFrontend [.run oneEdit]).task.replacements plainFrontend :=
  (session_edits plainFrontend [.run oneEdit]).2.2.2 [.save, .save] (by simp)

/-! ## The files -/

/-- **The files that any session writes**: a file is written if it can be, and a run before some
    `save` recorded an edit of it that can be applied. -/
theorem session_written [IsStrictTotalOrder Replacement frontend.less] (calls : List TaskCall)
    (path : Str) :
    path ∈ (session frontend calls).effects.written ↔
      frontend.saves path = true ∧
        ∃ pre toolRun mid post r, calls = pre ++ .run toolRun :: (mid ++ .save :: post) ∧
          r ∈ recordedBy (toolRun (added pre)).2 ∧ frontend.applies r = true ∧
          r.filePath = path := by
  have hstep : ∀ (s : Session) (call : TaskCall),
      path ∈ (s.step frontend call).effects.written ↔ path ∈ s.effects.written ∨
        (call = .save ∧ frontend.saves path = true ∧
          ∃ r ∈ s.task.replacements frontend, frontend.applies r = true ∧ r.filePath = path) := by
    intro s call
    cases call with
    | addRefactoring refactoring => simp [Session.step]
    | run toolRun => simp [Session.step]
    | save =>
      rw [Session.step, RefactoringTask.mem_save_written]
      simp
  have hrun := foldl_iff (P := fun s : Session => path ∈ s.effects.written) hstep calls {}
  refine hrun.trans ⟨?_, ?_⟩
  · rintro (h | ⟨before, _, post, rfl, rfl, hsaves, r, hr, happ, hpath⟩)
    · cases h
    · have henum := enumerates_replacements frontend (session frontend before).task
      obtain ⟨pre, toolRun, mid, rfl, hrec⟩ :=
        (mem_recorded_iff frontend before r).1 ((henum.mem_iff r).1 hr)
      exact ⟨hsaves, pre, toolRun, mid, post, r, by simp, hrec, happ, hpath⟩
  · rintro ⟨hsaves, pre, toolRun, mid, post, r, rfl, hrec, happ, hpath⟩
    have henum := enumerates_replacements frontend
      (session frontend (pre ++ .run toolRun :: mid)).task
    have hr := (henum.mem_iff r).2
      ((mem_recorded_iff frontend _ r).2 ⟨pre, toolRun, mid, rfl, hrec⟩)
    exact .inr ⟨pre ++ .run toolRun :: mid, .save, post, by simp, rfl, hsaves, r, hr, happ, hpath⟩

theorem session_written_a :
    bytes "a.c" ∈ (session plainFrontend [.run oneEdit, .save]).effects.written :=
  (session_written plainFrontend [.run oneEdit, .save] (bytes "a.c")).2
    ⟨rfl, [], oneEdit, [], [], ⟨bytes "a.c", 4, 1, bytes "g"⟩, rfl, by decide, rfl, rfl⟩

end RefactorCpp

import RefactorCpp.Refactoring.Factories
import RefactorCpp.Refactoring.Task

/-!
# The program

`Refactor::main` after the option parser has run.

* `main_of_accepted`, `main_of_not_accepted` — the ways through the program.
* `main_exitCode_zero_iff` — **exit status 0**: the refactoring was accepted, the tool run reported
  no error and every changed file was saved.  Replacements that could not be applied are
  reported on the error stream and do not count.
-/

set_option autoImplicit false

namespace RefactorCpp

/-- The options that `main` looks at. -/
structure Options where
  renameOccurrences : Nat := 0
  renameValue : Str := []
  verbose : Bool := false
  deriving DecidableEq, Repr

/-- The exit code, or `none` if a null pointer was dereferenced. -/
structure Outcome where
  exitCode : Option Int
  effects : Effects
  deriving DecidableEq, Repr

/-- `Eol` is an enumerator, so the stream prints its number. -/
def eol : Str := bytes "10"

/-- The debug message before the run. -/
def verboseEffects (frontend : Frontend) (options : Options) : Effects :=
  if options.verbose then
    ({} : Effects).outs (bytes "used Clang resource path: " ++ frontend.resourceDir ++ eol)
  else {}

/-- `Refactor::main`. -/
def main (frontend : Frontend) (options : Options) : Outcome :=
  let app : RefactoringTask := {}
  if 0 < options.renameOccurrences then
    match (fromString options.renameValue).bind
        (getFactories.create (bytes "rename-function")) with
    | .error e =>
      ⟨some 1, ({} : Effects).errs
        (bytes "Error while parsing command arguments: " ++ e.what ++ eol)⟩
    | .ok none => ⟨none, {}⟩
    | .ok (some refactoring) =>
      let ran := (app.addRefactoring refactoring).run frontend
      let effects := verboseEffects frontend options
      if ran.1 ≠ 0 then ⟨some ran.1, effects⟩
      else
        let saved := ran.2.save frontend effects
        ⟨some (if saved.1 then 0 else 1), saved.2⟩
  else ⟨some 1, ({} : Effects).errs (bytes "no refactorings given\n")⟩

/-! ## The ways through the program -/

/-- The option is given, and its value makes the refactoring. -/
def Accepted (options : Options) (refactoring : RenameFunction) : Prop :=
  0 < options.renameOccurrences ∧
    RenameFunction.fromArgument (bytes "rename-function") options.renameValue = .ok refactoring

/-- The replacements that the run of a refactoring records, each once. -/
def edits (frontend : Frontend) (refactoring : RenameFunction) : List Replacement :=
  editList frontend.less (runTool {} (frontend.toolRun [refactoring]).2)

theorem create_fromString (value : Str) :
    (fromString value).bind (getFactories.create (bytes "rename-function")) =
      (RenameFunction.fromArgument (bytes "rename-function") value).map some := by
  unfold RenameFunction.fromArgument
  cases fromString value with
  | error e => rfl
  | ok args => exact create_rename_function args

/-- **An accepted refactoring** is run, and saved if the run reports no error. -/
theorem main_of_accepted (frontend : Frontend) {options : Options} {refactoring : RenameFunction}
    (h : Accepted options refactoring) :
    main frontend options =
      if (frontend.toolRun [refactoring]).1 ≠ 0 then
        ⟨some (frontend.toolRun [refactoring]).1, verboseEffects frontend options⟩
      else
        let saved := RefactoringTask.save frontend
          ⟨[refactoring], runTool {} (frontend.toolRun [refactoring]).2⟩
          (verboseEffects frontend options)
        ⟨some (if saved.1 then 0 else 1), saved.2⟩ := by
  obtain ⟨hocc, hok⟩ := h
  rw [main, if_pos hocc, create_fromString, hok]
  rfl

/-- Anything else ends with exit code 1 before the run. -/
theorem main_of_not_accepted (frontend : Frontend) {options : Options}
    (h : ∀ refactoring, ¬ Accepted options refactoring) :
    (main frontend options).exitCode = some 1 ∧ (main frontend options).effects.saved = [] := by
  unfold main
  split
  · rename_i hocc
    rw [create_fromString]
    cases hok : RenameFunction.fromArgument (bytes "rename-function") options.renameValue with
    | error e => exact ⟨rfl, rfl⟩
    | ok refactoring => exact absurd ⟨hocc, hok⟩ (h refactoring)
  · exact ⟨rfl, rfl⟩

@[simp] theorem verboseEffects_err (frontend : Frontend) (options : Options) :
    (verboseEffects frontend options).err = [] := by
  unfold verboseEffects
  split <;> rfl

@[simp] theorem verboseEffects_saved (frontend : Frontend) (options : Options) :
    (verboseEffects frontend options).saved = [] := by
  unfold verboseEffects
  split <;> rfl

@[simp] theorem verboseEffects_written (frontend : Frontend) (options : Options) :
    (verboseEffects frontend options).written = [] := by
  rw [Effects.written, verboseEffects_saved, List.map_nil]

/-! ## Exit status -/

theorem main_exitCode_of_accepted (frontend : Frontend) {options : Options}
    {refactoring : RenameFunction} (h : Accepted options refactoring) :
    (main frontend options).exitCode = some 0 ↔
      (frontend.toolRun [refactoring]).1 = 0 ∧
      ∀ r ∈ edits frontend refactoring, frontend.applies r = true →
        frontend.saves r.filePath = true := by
  rw [main_of_accepted frontend h]
  by_cases hrun : (frontend.toolRun [refactoring]).1 = 0
  · rw [if_neg (by simpa using hrun)]
    have hsave := RefactoringTask.save_result frontend
      ⟨[refactoring], runTool {} (frontend.toolRun [refactoring]).2⟩
      (verboseEffects frontend options)
    refine Iff.trans ?_ (hsave.trans (and_iff_right hrun).symm)
    simp
  · rw [if_pos hrun]
    simp [hrun]

/-- **Exit status 0** says that the refactoring was accepted, that the tool run reported no error
    and that every changed file was saved.  A replacement that cannot be applied is only
    reported, and nothing is written after a tool run with an error. -/
theorem main_exitCode_zero_iff (frontend : Frontend) (options : Options) :
    ((main frontend options).exitCode = some 0 ↔
      ∃ refactoring, Accepted options refactoring ∧ (frontend.toolRun [refactoring]).1 = 0 ∧
        ∀ r ∈ edits frontend refactoring, frontend.applies r = true →
          frontend.saves r.filePath = true) ∧
    ∀ refactoring, Accepted options refactoring →
      ((frontend.toolRun [refactoring]).1 ≠ 0 → (main frontend options).effects.written = []) ∧
      ((frontend.toolRun [refactoring]).1 = 0 →
        (main frontend options).effects.err =
          (if (edits frontend refactoring).all frontend.applies then []
            else bytes "Skipped some replacements.\n") ∧
        ∀ path, path ∈ (main frontend options).effects.written ↔
          frontend.saves path = true ∧
            ∃ r ∈ edits frontend refactoring, frontend.applies r = true ∧ r.filePath = path) := by
  constructor
  · constructor
    · intro hzero
      by_cases hacc : ∃ refactoring, Accepted options refactoring
      · obtain ⟨refactoring, hacc⟩ := hacc
        exact ⟨refactoring, hacc, (main_exitCode_of_accepted frontend hacc).1 hzero⟩
      · have hone := (main_of_not_accepted frontend fun r hr => hacc ⟨r, hr⟩).1
        rw [hone] at hzero
        cases hzero
    · rintro ⟨refactoring, hacc, h⟩
      exact (main_exitCode_of_accepted frontend hacc).2 h
  · intro refactoring hacc
    rw [main_of_accepted frontend hacc]
    constructor
    · intro hrun
      rw [if_pos hrun]
      exact verboseEffects_written frontend options
    · intro hrun
      rw [if_neg (by simpa using hrun)]
      refine ⟨?_, fun path => ?_⟩
      · rw [RefactoringTask.save_err, verboseEffects_err, List.nil_append]
        rfl
      · rw [RefactoringTask.mem_save_written, verboseEffects_written]
        simp only [List.not_mem_nil, false_or]
        rfl

/-- No replacement can be applied. -/
def skippingFrontend : Frontend where
  less := Replacement.less
  decidableLess := inferInstance
  toolRun _ := (0, [[⟨.safe, [⟨bytes "a.cpp", 4, 1, bytes "g"⟩]⟩]])
  applies _ := false
  rewriteBuffer := Patches.apply
  saves _ := true
  toString r := r.replacementText

/-- The only replacement is skipped, and the exit code is 0. -/
theorem main_exitCode_skipped :
    (main skippingFrontend ⟨1, bytes "f,g", false⟩).exitCode = some 0 ∧
    ∃ refactoring, Accepted ⟨1, bytes "f,g", false⟩ refactoring ∧
      ∃ r ∈ edits skippingFrontend refactoring, skippingFrontend.applies r = false := by
  have hpieces : Fields.pieces 0x2C (bytes "f,g") = [bytes "f", bytes "g"] := by
    rw [show bytes "f,g" = bytes "f" ++ 0x2C :: bytes "g" by decide,
      Fields.pieces_append_cons (by decide), Fields.pieces_of_not_mem (by decide) (by decide)]
  have hcases := RenameFunction.fromArgument_cases (bytes "rename-function") (bytes "f,g")
  rw [hpieces, if_pos (by decide)] at hcases
  obtain ⟨refactoring, hok⟩ := hcases
  have hacc : Accepted ⟨1, bytes "f,g", false⟩ refactoring := ⟨Nat.one_pos, hok⟩
  refine ⟨(main_exitCode_of_accepted skippingFrontend hacc).2 ⟨rfl, ?_⟩, refactoring, hacc, ?_⟩
  · intro r _ happ
    cases happ
  · have hmem := (editList_enumerates Replacement.less
      [[⟨.safe, [⟨bytes "a.cpp", 4, 1, bytes "g"⟩]⟩]]).mem_iff ⟨bytes "a.cpp", 4, 1, bytes "g"⟩
    exact ⟨_, hmem.2 (by decide), rfl⟩

end RefactorCpp

import RefactorCpp.Refactoring.Main

/-!
# What the program prints

* `RefactoringTask.save_out` — `save` lists its edits, one on a line, before it applies them.
* `main_console` — **every way through the program**: its exit code and what it prints and writes.
-/

set_option autoImplicit false

namespace RefactorCpp

/-- The edits as they are listed. -/
def editLines (frontend : Frontend) (rs : List Replacement) : Str :=
  rs.flatMap fun r => frontend.toString r ++ [0x0A]

theorem foldl_outs_out (text : Replacement → Str) (rs : List Replacement) (effects : Effects) :
    (rs.foldl (fun effects r => effects.outs (text r)) effects).out =
      effects.out ++ rs.flatMap text := by
  induction rs generalizing effects with
  | nil => simp
  | cons r rs ih =>
    rw [List.foldl_cons, ih, List.flatMap_cons, ← List.append_assoc]
    rfl

/-- Every edit is listed, in order, also the ones that cannot be applied. -/
theorem RefactoringTask.save_out (frontend : Frontend) (task : RefactoringTask)
    (effects : Effects) :
    (task.save frontend effects).2.out =
      effects.out ++ editLines frontend (task.replacements frontend) := by
  have hout : ∀ (b : Bool) (e : Effects) (text : Str) (saved : List SavedFile),
      ((if b then e.errs text else e).overwrite saved).out = e.out := by
    intro b e text saved
    cases b <;> rfl
  simp only [save, hout]
  exact foldl_outs_out _ _ effects

/-- Only two things can be wrong with the value of the option. -/
theorem RenameFunction.fromArgument_error {name s : Str} {e : StdException}
    (h : RenameFunction.fromArgument name s = .error e) :
    e = .invalidArgument (bytes "empty argument") ∨ e = .invalidArgument (bytes
      "-rename-function: Failed to parse parameters.\nSyntax: -rename-function OLD,NEW") := by
  unfold fromArgument at h
  rw [fromString_eq] at h
  cases hblank : noBlank (Fields.pieces 0x2C s) with
  | false =>
    rw [hblank, if_neg (by simp)] at h
    cases h
    exact .inl rfl
  | true =>
    rw [hblank, if_pos rfl] at h
    simp only [new] at h
    split at h
    · cases h
    · cases h
      exact .inr rfl

/-- **Every way through the program.**  A null pointer is never dereferenced.  Without the option
    or with a value that makes no refactoring there is one message and exit code 1.  Otherwise
    the edits are listed in order, unless the tool run ends with an error, which is the exit
    code. -/
theorem main_console (frontend : Frontend) (options : Options) :
    (main frontend options).exitCode ≠ none ∧
    (options.renameOccurrences = 0 →
      main frontend options = ⟨some 1, ⟨[], bytes "no refactorings given\n", []⟩⟩) ∧
    (0 < options.renameOccurrences → ∀ e,
      RenameFunction.fromArgument (bytes "rename-function") options.renameValue = .error e →
      main frontend options =
        ⟨some 1,
          ⟨[], bytes "Error while parsing command arguments: " ++ e.what ++ bytes "10", []⟩⟩ ∧
      (e.what = bytes "empty argument" ∨ e.what = bytes
        "-rename-function: Failed to parse parameters.\nSyntax: -rename-function OLD,NEW")) ∧
    ∀ refactoring, Accepted options refactoring →
      ((frontend.toolRun [refactoring]).1 ≠ 0 →
        main frontend options =
          ⟨some (frontend.toolRun [refactoring]).1, verboseEffects frontend options⟩) ∧
      ((frontend.toolRun [refactoring]).1 = 0 →
        (main frontend options).effects.out = (verboseEffects frontend options).out ++
          editLines frontend (edits frontend refactoring)) := by
  have haccepted : ∀ refactoring, Accepted options refactoring →
      (main frontend options).exitCode ≠ none ∧
      ((frontend.toolRun [refactoring]).1 ≠ 0 →
        main frontend options =
          ⟨some (frontend.toolRun [refactoring]).1, verboseEffects frontend options⟩) ∧
      ((frontend.toolRun [refactoring]).1 = 0 →
        (main frontend options).effects.out = (verboseEffects frontend options).out ++
          editLines frontend (edits frontend refactoring)) := by
    intro refactoring hacc
    rw [main_of_accepted frontend hacc]
    by_cases hrun : (frontend.toolRun [refactoring]).1 = 0
    · rw [if_neg (by simpa using hrun)]
      refine ⟨by simp, fun hne => absurd hrun hne, fun _ => ?_⟩
      exact RefactoringTask.save_out frontend _ _
    · rw [if_pos hrun]
      exact ⟨by simp, fun _ => rfl, fun h => absurd h hrun⟩
  refine ⟨?_, fun hocc => ?_, fun hocc e herror => ?_, fun r hr => (haccepted r hr).2⟩
  · by_cases hacc : ∃ refactoring, Accepted options refactoring
    · obtain ⟨refactoring, hacc⟩ := hacc
      exact (haccepted refactoring hacc).1
    · rw [(main_of_not_accepted frontend fun r hr => hacc ⟨r, hr⟩).1]
      simp
  · rw [main, if_neg (by omega)]
    rfl
  · refine ⟨?_, ?_⟩
    · rw [main, if_pos hocc, create_fromString, herror]
      rfl
    · rcases RenameFunction.fromArgument_error herror with rfl | rfl
      · exact .inl rfl
      · exact .inr rfl

end RefactorCpp

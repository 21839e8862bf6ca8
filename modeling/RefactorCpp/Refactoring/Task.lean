import Mathlib.Logic.Function.Basic
import RefactorCpp.Refactoring.EditList
import RefactorCpp.Support.Patches

/-!
# Running and saving

`refactoringtask.cpp`.  What the tool run reports and records, which replacements Clang applies,
what it makes of a text and which files can be written are not decided here: they are the
fields of a `Frontend`.

* `applyAllReplacements_eq` — the replacements that can be applied are, and the result says
  whether all of them could.
* `RefactoringTask.save_result` — **`save` succeeds exactly if every changed file was saved**.
* `RefactoringTask.save_err`, `RefactoringTask.mem_save_written` — a skipped replacement is only
  reported, and the files that are written.
* `RefactoringTask.save_files` — **the texts on disk after `save`**.
-/

set_option autoImplicit false

namespace RefactorCpp

open Patches

/-- The parts of Clang that decide how a run goes, and the disk. -/
structure Frontend where
  /-- `operator<` of replacements. -/
  less : Replacement → Replacement → Prop
  decidableLess : DecidableRel less
  /-- `ClangTool::run` with the matchers of the actions: its result, and the match callbacks. -/
  toolRun : List RenameFunction → Int × List TranslationUnit
  /-- Whether a replacement can be applied. -/
  applies : Replacement → Bool
  /-- `RewriteBuffer`: what becomes of a text by calls of `ReplaceText`, one after the other. -/
  rewriteBuffer : Str → List (Patch Byte) → Str
  /-- Whether the file at a path can be overwritten. -/
  saves : Str → Bool
  /-- `Replacement::toString`. -/
  toString : Replacement → Str
  /-- `Clang::getResourceDir`. -/
  resourceDir : Str := []
  /-- The texts of the files when the program starts. -/
  files : Str → Str := fun _ => []

instance (frontend : Frontend) : DecidableRel frontend.less := frontend.decidableLess

/-- A file that was overwritten, with its new text. -/
structure SavedFile where
  path : Str
  text : Str
  deriving DecidableEq, Repr

/-- What has been written so far: the two output streams and the saved files. -/
structure Effects where
  out : Str := []
  err : Str := []
  saved : List SavedFile := []
  deriving DecidableEq, Repr

/-- The paths of the saved files. -/
def Effects.written (effects : Effects) : List Str := effects.saved.map SavedFile.path

/-- The texts of the files, from what they were before. -/
def Effects.files (effects : Effects) (files : Str → Str) : Str → Str :=
  effects.saved.foldl (fun files file => Function.update files file.path file.text) files

/-- `llvm::outs() << text`. -/
def Effects.outs (effects : Effects) (text : Str) : Effects :=
  { effects with out := effects.out ++ text }

/-- `llvm::errs() << text`. -/
def Effects.errs (effects : Effects) (text : Str) : Effects :=
  { effects with err := effects.err ++ text }

/-- Files are overwritten, in order. -/
def Effects.overwrite (effects : Effects) (saved : List SavedFile) : Effects :=
  { effects with saved := effects.saved ++ saved }

@[simp] theorem Effects.errs_err (e : Effects) (text : Str) :
    (e.errs text).err = e.err ++ text := rfl

@[simp] theorem Effects.overwrite_err (e : Effects) (saved : List SavedFile) :
    (e.overwrite saved).err = e.err := rfl

@[simp] theorem Effects.overwrite_saved (e : Effects) (saved : List SavedFile) :
    (e.overwrite saved).saved = e.saved ++ saved := rfl

/-- Files whose texts depend on their paths only are overwritten. -/
theorem foldl_update_map (text : Str → Str) (paths : List Str) (files : Str → Str) (path : Str) :
    (paths.map fun path => (⟨path, text path⟩ : SavedFile)).foldl
        (fun files file => Function.update files file.path file.text) files path =
      if path ∈ paths then text path else files path := by
  induction paths generalizing files with
  | nil => rfl
  | cons p paths ih =>
    rw [List.map_cons, List.foldl_cons, ih]
    by_cases hpath : path ∈ paths
    · rw [if_pos hpath, if_pos (List.mem_cons_of_mem p hpath)]
    · rw [if_neg hpath]
      by_cases hp : path = p
      · rw [hp, Function.update_self, if_pos List.mem_cons_self]
      · rw [Function.update_of_ne hp, if_neg (by simp [hp, hpath])]

/-! ## The rewriter -/

/-- A replacement as a patch of the text of its file. -/
def Replacement.patch (r : Replacement) : Patch Byte := ⟨r.offset, r.length, r.replacementText⟩

/-- What is kept of Clang's `Rewriter`: the replacements that were applied, each to the buffer of
    its file. -/
structure Rewriter where
  applied : List Replacement := []
  deriving DecidableEq, Repr

/-- The contract that is assumed of Clang's `applyAllReplacements`: it applies what can be applied,
    in order, and returns whether that was everything. -/
def applyAllReplacements (frontend : Frontend) (replacements : List Replacement)
    (rewriter : Rewriter) : Bool × Rewriter :=
  replacements.foldl (fun result r =>
    if frontend.applies r then (result.1, ⟨result.2.applied ++ [r]⟩) else (false, result.2))
    (true, rewriter)

/-- The files with a replacement that was applied. -/
def Rewriter.changedFiles (rewriter : Rewriter) : List Str :=
  (rewriter.applied.map Replacement.filePath).dedup

/-- What is in the buffer of a file. -/
def Rewriter.buffer (frontend : Frontend) (rewriter : Rewriter) (files : Str → Str)
    (path : Str) : Str :=
  frontend.rewriteBuffer (files path)
    ((rewriter.applied.filter fun r => r.filePath = path).map Replacement.patch)

/-- The contract that is assumed of `Rewriter::overwriteChangedFiles`: it writes the buffers of the
    changed files that can be saved, and returns whether some file could not be. -/
def Rewriter.overwriteChangedFiles (frontend : Frontend) (rewriter : Rewriter)
    (files : Str → Str) : Bool × List SavedFile :=
  (rewriter.changedFiles.any fun path => !frontend.saves path,
    (rewriter.changedFiles.filter frontend.saves).map fun path =>
      ⟨path, rewriter.buffer frontend files path⟩)

theorem applyAllReplacements_eq (frontend : Frontend) (replacements : List Replacement)
    (rewriter : Rewriter) :
    applyAllReplacements frontend replacements rewriter =
      (replacements.all frontend.applies,
        ⟨rewriter.applied ++ replacements.filter frontend.applies⟩) := by
  have h : ∀ (rs : List Replacement) (b : Bool) (applied : List Replacement),
      rs.foldl (fun result r =>
        if frontend.applies r then (result.1, ⟨result.2.applied ++ [r]⟩) else (false, result.2))
        (b, (⟨applied⟩ : Rewriter)) =
      (b && rs.all frontend.applies, ⟨applied ++ rs.filter frontend.applies⟩) := by
    intro rs
    induction rs with
    | nil => simp
    | cons r rs ih =>
      intro b applied
      rw [List.foldl_cons]
      cases hr : frontend.applies r with
      | true =>
        rw [if_pos rfl, ih, List.all_cons, hr, Bool.true_and, List.filter_cons_of_pos hr,
          List.append_assoc, List.singleton_append]
      | false =>
        rw [if_neg (by simp), ih, List.all_cons, hr, Bool.false_and, Bool.and_false,
          List.filter_cons_of_neg (by simp [hr])]
  unfold applyAllReplacements
  rw [h, Bool.true_and]

theorem Rewriter.mem_changedFiles {rewriter : Rewriter} {path : Str} :
    path ∈ rewriter.changedFiles ↔ ∃ r ∈ rewriter.applied, r.filePath = path := by
  unfold changedFiles
  rw [List.mem_dedup, List.mem_map]

/-! ## The task -/

/-- The actions of the added refactorings, and what they record. -/
structure RefactoringTask where
  actions : List RenameFunction := []
  context : RefactoringContext := {}
  deriving DecidableEq, Repr

/-- `RefactoringTask::addRefactoring`. -/
def RefactoringTask.addRefactoring (task : RefactoringTask) (refactoring : RenameFunction) :
    RefactoringTask :=
  { task with actions := task.actions ++ [refactoring] }

/-- `RefactoringTask::run`. -/
def RefactoringTask.run (frontend : Frontend) (task : RefactoringTask) : Int × RefactoringTask :=
  let result := frontend.toolRun task.actions
  (result.1, { task with context := runTool task.context result.2 })

/-- The replacements that `save` works on. -/
def RefactoringTask.replacements (frontend : Frontend) (task : RefactoringTask) :
    List Replacement :=
  editList frontend.less task.context

/-- `RefactoringTask::save`.  The rewriter reads the files as they are on disk now. -/
def RefactoringTask.save (frontend : Frontend) (task : RefactoringTask) (effects : Effects) :
    Bool × Effects :=
  let replacements := task.replacements frontend
  let effects := replacements.foldl
    (fun effects r => effects.outs (frontend.toString r ++ [0x0A])) effects
  let applied := applyAllReplacements frontend replacements {}
  let effects :=
    if !applied.1 then effects.errs (bytes "Skipped some replacements.\n") else effects
  let overwritten := applied.2.overwriteChangedFiles frontend (effects.files frontend.files)
  (!overwritten.1, effects.overwrite overwritten.2)

/-- Printing the list leaves the other effects alone. -/
theorem foldl_outs (text : Replacement → Str) (rs : List Replacement) (effects : Effects) :
    (rs.foldl (fun effects r => effects.outs (text r)) effects).err = effects.err ∧
    (rs.foldl (fun effects r => effects.outs (text r)) effects).saved = effects.saved := by
  induction rs generalizing effects with
  | nil => exact ⟨rfl, rfl⟩
  | cons r rs ih => exact ih (effects.outs (text r))

/-- The paths of the replacements that are applied. -/
theorem mem_changedFiles_filter (frontend : Frontend) {rs : List Replacement} {path : Str} :
    path ∈ (⟨rs.filter frontend.applies⟩ : Rewriter).changedFiles ↔
      ∃ r ∈ rs, frontend.applies r = true ∧ r.filePath = path := by
  rw [Rewriter.mem_changedFiles]
  constructor
  · rintro ⟨r, hr, rfl⟩
    obtain ⟨hmem, happ⟩ := List.mem_filter.1 hr
    exact ⟨r, hmem, happ, rfl⟩
  · rintro ⟨r, hmem, happ, rfl⟩
    exact ⟨r, List.mem_filter.2 ⟨hmem, happ⟩, rfl⟩

/-- **The result of `save`** is whether every changed file was saved. -/
theorem RefactoringTask.save_result (frontend : Frontend) (task : RefactoringTask)
    (effects : Effects) :
    (task.save frontend effects).1 = true ↔
      ∀ r ∈ task.replacements frontend, frontend.applies r = true →
        frontend.saves r.filePath = true := by
  simp only [save, applyAllReplacements_eq, List.nil_append]
  rw [Rewriter.overwriteChangedFiles, Bool.not_eq_true', List.any_eq_false]
  constructor
  · intro h r hr happ
    have := h r.filePath ((mem_changedFiles_filter frontend).2 ⟨r, hr, happ, rfl⟩)
    simpa using this
  · intro h path hpath
    obtain ⟨r, hmem, happ, rfl⟩ := (mem_changedFiles_filter frontend).1 hpath
    simp [h r hmem happ]

/-- A skipped replacement leads to a message, and to nothing else. -/
theorem RefactoringTask.save_err (frontend : Frontend) (task : RefactoringTask)
    (effects : Effects) :
    (task.save frontend effects).2.err =
      effects.err ++ (if (task.replacements frontend).all frontend.applies then []
        else bytes "Skipped some replacements.\n") := by
  simp only [save, applyAllReplacements_eq, Effects.overwrite_err]
  cases (task.replacements frontend).all frontend.applies with
  | true =>
    rw [if_neg (by simp), if_pos rfl, List.append_nil]
    exact (foldl_outs _ _ effects).1
  | false =>
    rw [if_pos (by simp), if_neg (by simp), Effects.errs_err, (foldl_outs _ _ effects).1]

/-- What `save` puts on the disk. -/
theorem RefactoringTask.save_saved (frontend : Frontend) (task : RefactoringTask)
    (effects : Effects) :
    (task.save frontend effects).2.saved = effects.saved ++
      ((⟨(task.replacements frontend).filter frontend.applies⟩ : Rewriter).overwriteChangedFiles
        frontend (effects.files frontend.files)).2 := by
  have hprinted : ∀ b : Bool,
      (if b then (List.foldl (fun effects r => effects.outs (frontend.toString r ++ [0x0A])) effects
          (task.replacements frontend)).errs (bytes "Skipped some replacements.\n")
        else List.foldl (fun effects r => effects.outs (frontend.toString r ++ [0x0A])) effects
          (task.replacements frontend)).saved = effects.saved := by
    intro b
    cases b
    · exact (foldl_outs _ _ effects).2
    · exact (foldl_outs _ _ effects).2
  simp only [save, applyAllReplacements_eq, List.nil_append, Effects.overwrite_saved, Effects.files,
    hprinted]

/-- **The files that `save` writes** are the changed files that can be written. -/
theorem RefactoringTask.mem_save_written (frontend : Frontend) (task : RefactoringTask)
    (effects : Effects) (path : Str) :
    path ∈ (task.save frontend effects).2.written ↔
      path ∈ effects.written ∨ frontend.saves path = true ∧
        ∃ r ∈ task.replacements frontend, frontend.applies r = true ∧ r.filePath = path := by
  have hpaths : ∀ paths : List Str, ∀ text : Str → Str,
      (paths.map fun path => (⟨path, text path⟩ : SavedFile)).map SavedFile.path = paths := by
    intro paths text
    rw [List.map_map]
    exact List.map_id' paths
  rw [Effects.written, save_saved, List.map_append, List.mem_append, Effects.written,
    Rewriter.overwriteChangedFiles, hpaths, List.mem_filter, mem_changedFiles_filter, and_comm]

/-- **The texts on disk after `save`**: a file that it writes has the text of its buffer, into which
    the replacements of the file that can be applied were made in the order of the edit list, and
    every other file is what it was. -/
theorem RefactoringTask.save_files (frontend : Frontend) (task : RefactoringTask)
    (effects : Effects) (path : Str) :
    (task.save frontend effects).2.files frontend.files path =
      if path ∈ (⟨(task.replacements frontend).filter frontend.applies⟩ : Rewriter).changedFiles ∧
          frontend.saves path = true then
        frontend.rewriteBuffer (effects.files frontend.files path)
          ((((task.replacements frontend).filter frontend.applies).filter fun r =>
            r.filePath = path).map Replacement.patch)
      else effects.files frontend.files path := by
  rw [Effects.files, save_saved, List.foldl_append, Rewriter.overwriteChangedFiles,
    foldl_update_map]
  simp only [List.mem_filter]
  rfl

end RefactorCpp

import RefactorCpp.Refactoring.Matchers
import RefactorCpp.Refactoring.NormalForm

/-!
# The files after a run

`main` from the value of its option to the texts on disk.

* `filesAfter` — the disk after the program, as `save` leaves it.
* `filesAfter_of_accepted` — a file after a run without an error.
* `main_renames` — **what the program does to the files**: without an accepted refactoring or after
  an error of the tool run they are what they were, and otherwise the declarations of the function
  and the references to it have the new name.
* `main_renames_back` — **renaming back restores a file**.
-/

set_option autoImplicit false

namespace RefactorCpp

open Patches

/-- The texts of the files after the program. -/
def filesAfter (frontend : Frontend) (options : Options) : Str → Str :=
  (main frontend options).effects.files frontend.files

theorem filesAfter_of_not_saved {frontend : Frontend} {options : Options}
    (h : (main frontend options).effects.saved = []) :
    filesAfter frontend options = frontend.files := by
  rw [filesAfter, Effects.files, h, List.foldl_nil]

section Files

variable (frontend : Frontend) [IsStrictTotalOrder Replacement frontend.less]

/-- **A file after an accepted refactoring** that was run without an error. -/
theorem filesAfter_of_accepted
    (hless : ∀ r r' : Replacement, r.filePath = r'.filePath → r.offset < r'.offset →
      frontend.less r r')
    (hbuffer : ReplacesText frontend)
    {options : Options} {refactoring : RenameFunction} {path rest : Str}
    {pieces : List (Piece Byte)} (hacc : Accepted options refactoring)
    (hzero : (frontend.toolRun [refactoring]).1 = 0)
    (hrun : RecordsTokens (frontend.toolRun [refactoring]).2 refactoring.newName path pieces)
    (hne : ∀ piece ∈ pieces, piece.token ≠ [])
    (hfile : frontend.files path = Patches.text pieces rest) :
    filesAfter frontend options path =
      if frontend.saves path then
        Patches.text (renamedWhere (appliesAt frontend path) refactoring.newName 0 pieces) rest
      else frontend.files path := by
  have hdisk : (verboseEffects frontend options).files frontend.files = frontend.files := by
    rw [Effects.files, verboseEffects_saved, List.foldl_nil]
  have hsave := RefactoringTask.save_files frontend
    ⟨[refactoring], runTool {} (frontend.toolRun [refactoring]).2⟩
    (verboseEffects frontend options) path
  have hpatched := rewriteBuffer_edits frontend hless hbuffer rest hrun hne
  rw [edits] at hpatched
  rw [filesAfter, main_of_accepted frontend hacc, if_neg (by simpa using hzero)]
  refine hsave.trans ?_
  rw [hdisk, RefactoringTask.replacements, hfile, hpatched]
  by_cases hmem : path ∈ (⟨(editList frontend.less
      (runTool {} (frontend.toolRun [refactoring]).2)).filter frontend.applies⟩ :
        Rewriter).changedFiles
  · simp only [hmem, true_and]
  · -- no edit of the file could be applied
    rw [if_neg fun h => hmem h.1, renamedWhere_eq_self, ite_self]
    intro p hp
    rw [appliesAt, Bool.eq_false_iff]
    intro happ
    have hr : (⟨path, p.offset, p.length, p.text⟩ : Replacement) ∈
        (edits frontend refactoring).filter fun r => r.filePath = path := by
      rw [filter_edits_eq frontend hless hrun hne]
      exact List.mem_map_of_mem hp
    exact hmem ((mem_changedFiles_filter frontend).2 ⟨_, List.mem_of_mem_filter hr, happ, rfl⟩)

/-- The refactoring of the option is never an unsafe one. -/
theorem renames_iff_of_accepted {ν : Type} (ast : Ast ν) {options : Options}
    {refactoring : RenameFunction} (hacc : Accepted options refactoring) (node : ν) :
    Renames ast refactoring node ↔
      ast.declares refactoring.oldName node = true ∨
        ast.refersTo refactoring.oldName node = true ∧
          ast.isInTemplateInstantiation node = false := by
  have hsafe := (RenameFunction.canonical_of_fromArgument hacc.2).2.safe
  rw [Renames, renamesRef, hsafe, or_comm]
  simp

/-- The tokens of the pieces are those of the declarations of a function in this file and of the
    references to it outside template instantiations. -/
def TokensOf {ν : Type} (ast : Ast ν) (trees : List (List ν)) (name path : Str)
    (pieces : List (Piece Byte)) : Prop :=
  ∀ range : CharRange, range.filePath = path → (range ∈ tokenRanges path pieces ↔
    ∃ node ∈ trees.flatten, ast.location node = range ∧
      (ast.declares name node = true ∨
        ast.refersTo name node = true ∧ ast.isInTemplateInstantiation node = false))

/-- The tokens are looked up one by one, and the nodes too. -/
theorem tokensOf_iff {ν : Type} {ast : Ast ν} {trees : List (List ν)} {name path : Str}
    {pieces : List (Piece Byte)} :
    TokensOf ast trees name path pieces ↔
      (∀ range ∈ tokenRanges path pieces, ∃ node ∈ trees.flatten, ast.location node = range ∧
        (ast.declares name node = true ∨
          ast.refersTo name node = true ∧ ast.isInTemplateInstantiation node = false)) ∧
      ∀ node ∈ trees.flatten, (ast.location node).filePath = path →
        (ast.declares name node = true ∨
          ast.refersTo name node = true ∧ ast.isInTemplateInstantiation node = false) →
        ast.location node ∈ tokenRanges path pieces := by
  have hpath : ∀ range ∈ tokenRanges path pieces, range.filePath = path := by
    intro range hrange
    obtain ⟨p, -, rfl⟩ := List.mem_map.1 hrange
    rfl
  constructor
  · intro h
    exact ⟨fun range hrange => (h range (hpath range hrange)).1 hrange,
      fun node hnode hfile hmatch => (h _ hfile).2 ⟨node, hnode, rfl, hmatch⟩⟩
  · rintro ⟨htokens, hnodes⟩ range hfile
    refine ⟨htokens range, ?_⟩
    rintro ⟨node, hnode, rfl, hmatch⟩
    exact hnodes node hnode hfile hmatch

theorem TokensOf.recordsTokens {ν : Type} {ast : Ast ν} {trees : List (List ν)}
    {options : Options} {refactoring : RenameFunction} {path : Str} {pieces : List (Piece Byte)}
    (h : TokensOf ast trees refactoring.oldName path pieces)
    (hacc : Accepted options refactoring) :
    RecordsTokens (matchTrees ast trees [refactoring]) refactoring.newName path pieces := by
  refine recordsTokens_matchTrees ast trees fun range hpath => ?_
  simp only [renames_iff_of_accepted ast hacc]
  exact h range hpath

/-- **What the program does to the files.**  Without an accepted refactoring and after an error of
    the tool run it leaves them alone.  Otherwise it renames the tokens of the declarations of
    the function and of the references to it outside template instantiations, as far as their
    edits can be applied and their file can be saved, and no other character changes. -/
theorem main_renames
    (hless : ∀ r r' : Replacement, r.filePath = r'.filePath → r.offset < r'.offset →
      frontend.less r r')
    (hbuffer : ReplacesText frontend) {ν : Type} (ast : Ast ν) (trees : List (List ν))
    (hrun : ∀ actions, (frontend.toolRun actions).2 = matchTrees ast trees actions)
    (options : Options) :
    ((∀ refactoring, ¬ Accepted options refactoring) →
      filesAfter frontend options = frontend.files) ∧
    ∀ refactoring, Accepted options refactoring →
      ((frontend.toolRun [refactoring]).1 ≠ 0 → filesAfter frontend options = frontend.files) ∧
      ((frontend.toolRun [refactoring]).1 = 0 → ∀ path pieces rest,
        (∀ piece ∈ pieces, piece.token ≠ []) → frontend.files path = Patches.text pieces rest →
        TokensOf ast trees refactoring.oldName path pieces →
        filesAfter frontend options path =
          if frontend.saves path then
            Patches.text (renamedWhere (appliesAt frontend path) refactoring.newName 0 pieces) rest
          else frontend.files path) := by
  refine ⟨fun hnot => filesAfter_of_not_saved (main_of_not_accepted frontend hnot).2,
    fun refactoring hacc => ⟨fun herror => filesAfter_of_not_saved ?_, ?_⟩⟩
  · rw [main_of_accepted frontend hacc, if_pos herror]
    exact verboseEffects_saved frontend options
  · intro hzero path pieces rest hne hfile htokens
    refine filesAfter_of_accepted frontend hless hbuffer hacc hzero ?_ hne hfile
    rw [hrun]
    exact htokens.recordsTokens hacc

/-- A file in which all edits can be made. -/
theorem filesAfter_renamed
    (hless : ∀ r r' : Replacement, r.filePath = r'.filePath → r.offset < r'.offset →
      frontend.less r r')
    (hbuffer : ReplacesText frontend)
    {options : Options} {refactoring : RenameFunction} {path rest : Str}
    {pieces : List (Piece Byte)} (hacc : Accepted options refactoring)
    (hzero : (frontend.toolRun [refactoring]).1 = 0)
    (hrun : RecordsTokens (frontend.toolRun [refactoring]).2 refactoring.newName path pieces)
    (hne : ∀ piece ∈ pieces, piece.token ≠ [])
    (hfile : frontend.files path = Patches.text pieces rest)
    (happ : ∀ r : Replacement, r.filePath = path → frontend.applies r = true)
    (hsaves : frontend.saves path = true) :
    filesAfter frontend options path = Patches.text (renamed refactoring.newName pieces) rest := by
  have hall : ∀ p ∈ patchesOf refactoring.newName 0 pieces, appliesAt frontend path p = true :=
    fun p _ => happ ⟨path, p.offset, p.length, p.text⟩ rfl
  rw [filesAfter_of_accepted frontend hless hbuffer hacc hzero hrun hne hfile, if_pos hsaves,
    renamedWhere_eq_renamed hall]

/-- **Renaming back restores a file**: the program is run twice, the second time on the disk that
    the first run left and over the syntax trees of the new files, in which the renamed tokens
    are those of the new function, and with what the tokens were as the new name. -/
theorem main_renames_back
    (hless : ∀ r r' : Replacement, r.filePath = r'.filePath → r.offset < r'.offset →
      frontend.less r r')
    (hbuffer : ReplacesText frontend)
    {ν ν' : Type} (ast : Ast ν) (ast' : Ast ν') (trees : List (List ν)) (trees' : List (List ν'))
    (toolRun : List RenameFunction → Int × List TranslationUnit)
    (hrun : ∀ actions, (frontend.toolRun actions).2 = matchTrees ast trees actions)
    (hrun' : ∀ actions, (toolRun actions).2 = matchTrees ast' trees' actions)
    (options options' : Options) (refactoring back : RenameFunction)
    (hacc : Accepted options refactoring) (hacc' : Accepted options' back)
    (hzero : (frontend.toolRun [refactoring]).1 = 0) (hzero' : (toolRun [back]).1 = 0)
    (path rest : Str) (pieces : List (Piece Byte))
    (hfile : frontend.files path = Patches.text pieces rest)
    (happ : ∀ r : Replacement, r.filePath = path → frontend.applies r = true)
    (hsaves : frontend.saves path = true)
    (htokens : TokensOf ast trees refactoring.oldName path pieces)
    (htokens' : TokensOf ast' trees' back.oldName path (renamed refactoring.newName pieces))
    (hback : ∀ piece ∈ pieces, piece.token = back.newName) :
    filesAfter frontend options path = Patches.text (renamed refactoring.newName pieces) rest ∧
    filesAfter { frontend with toolRun := toolRun, files := filesAfter frontend options } options'
      path = frontend.files path := by
  have hnew : refactoring.newName ≠ [] :=
    (RenameFunction.canonical_of_fromArgument hacc.2).2.newName.ne_nil
  have hold : back.newName ≠ [] :=
    (RenameFunction.canonical_of_fromArgument hacc'.2).2.newName.ne_nil
  have hne : ∀ piece ∈ pieces, piece.token ≠ [] := fun piece hpiece => by
    rw [hback piece hpiece]
    exact hold
  have hne' : ∀ piece ∈ renamed refactoring.newName pieces, piece.token ≠ [] := by
    intro piece hpiece
    obtain ⟨_, -, rfl⟩ := List.mem_map.1 hpiece
    exact hnew
  have hfirst := filesAfter_renamed frontend hless hbuffer hacc hzero
    ((hrun _).symm ▸ htokens.recordsTokens hacc) hne hfile happ hsaves
  have hsecond := filesAfter_renamed
    { frontend with toolRun := toolRun, files := filesAfter frontend options } hless hbuffer hacc'
    hzero' ((hrun' _).symm ▸ htokens'.recordsTokens hacc') hne' hfirst happ hsaves
  refine ⟨hfirst, ?_⟩
  rw [hsecond, renamed_renamed, renamed_self hback, hfile]

end Files

/-- The declaration of a function and a reference to it in `a.c`, as two translation units see
    them, and a reference to another function. -/
def treesOfTwoUnits (name : Str) (decl ref : CharRange) : List (List FunctionNode) :=
  [[⟨true, name, decl, false⟩, ⟨false, name, ref, false⟩],
    [⟨false, bytes "::g", ⟨bytes "a.c", 9, 1⟩, false⟩, ⟨false, name, ref, false⟩,
      ⟨true, name, decl, false⟩]]

theorem trimmed_f : Trimmed (bytes "f") := ⟨by decide, by decide, by decide, by decide⟩

theorem trimmed_go : Trimmed (bytes "go") := ⟨by decide, by decide, by decide, by decide⟩

theorem accepted_f_go : Accepted ⟨1, bytes "f,go", false⟩
    ⟨bytes "rename-function", bytes "::f", bytes "go", false⟩ :=
  ⟨Nat.one_pos, RenameFunction.fromArgument_pair (bytes "rename-function") trimmed_f trimmed_go⟩

/-- `a.c` with a declaration of `f` and a reference to it. -/
def diskWithF (_ : Str) : Str := bytes "int f(); g(f);"

/-- The second `f` cannot be replaced. -/
theorem main_renames_f_to_go :
    filesAfter { treesFrontend (treesOfTwoUnits (bytes "::f") ⟨bytes "a.c", 4, 1⟩
        ⟨bytes "a.c", 11, 1⟩) fun r => r.offset != 11 with files := diskWithF }
      ⟨1, bytes "f,go", false⟩ (bytes "a.c") = bytes "int go(); g(f);" := by
  have h := main_renames { treesFrontend (treesOfTwoUnits (bytes "::f") ⟨bytes "a.c", 4, 1⟩
      ⟨bytes "a.c", 11, 1⟩) fun r => r.offset != 11 with files := diskWithF }
    (fun _ _ _ hlt => Replacement.less_of_offset hlt) rewrites_apply writtenNames _ (fun _ => rfl)
    ⟨1, bytes "f,go", false⟩
  exact (h.2 _ accepted_f_go).2 rfl (bytes "a.c")
    [⟨bytes "int ", bytes "f"⟩, ⟨bytes "(); g(", bytes "f"⟩] (bytes ");") (by decide) rfl
    (tokensOf_iff.2 (by decide))

/-- `a.c` after `f` was renamed to `go` and back again. -/
theorem main_renames_back_f_go_f :
    filesAfter { treesFrontend (treesOfTwoUnits (bytes "::f") ⟨bytes "a.c", 4, 1⟩
        ⟨bytes "a.c", 11, 1⟩) fun _ => true with
        toolRun := (treesFrontend (treesOfTwoUnits (bytes "::go") ⟨bytes "a.c", 4, 2⟩
          ⟨bytes "a.c", 12, 2⟩) fun _ => true).toolRun
        files := filesAfter { treesFrontend (treesOfTwoUnits (bytes "::f") ⟨bytes "a.c", 4, 1⟩
          ⟨bytes "a.c", 11, 1⟩) fun _ => true with files := diskWithF } ⟨1, bytes "f,go", false⟩ }
      ⟨1, bytes "go,f", false⟩ (bytes "a.c") = bytes "int f(); g(f);" :=
  (main_renames_back
    { treesFrontend (treesOfTwoUnits (bytes "::f") ⟨bytes "a.c", 4, 1⟩ ⟨bytes "a.c", 11, 1⟩)
      fun _ => true with files := diskWithF }
    (fun _ _ _ hlt => Replacement.less_of_offset hlt) rewrites_apply writtenNames writtenNames _
    (treesOfTwoUnits (bytes "::go") ⟨bytes "a.c", 4, 2⟩ ⟨bytes "a.c", 12, 2⟩) _ (fun _ => rfl)
    (fun _ => rfl) ⟨1, bytes "f,go", false⟩ ⟨1, bytes "go,f", false⟩ _
    ⟨bytes "rename-function", bytes "::go", bytes "f", false⟩ accepted_f_go
    ⟨Nat.one_pos, RenameFunction.fromArgument_pair (bytes "rename-function") trimmed_go trimmed_f⟩
    rfl rfl (bytes "a.c") (bytes ");")
    [⟨bytes "int ", bytes "f"⟩, ⟨bytes "(); g(", bytes "f"⟩] rfl (fun _ _ => rfl) rfl
    (tokensOf_iff.2 (by decide)) (tokensOf_iff.2 (by decide)) (by decide)).2

end RefactorCpp

import RefactorCpp.Refactoring.Args
import RefactorCpp.Refactoring.Replacements

/-!
# The edit list of a run

The tool walks over the translation units and calls a match callback for every match.  Each
callback records its replacements through one builder.

* `recorded_runTool` — the context holds what the callbacks recorded, in the order of the calls.
* `editList_enumerates` — **the edit list enumerates the set of recorded replacements**, so order,
  multiplicity and grouping do not matter.
* `rename_span_injective` — one `RenameFunction` never replaces the same characters in two ways.
* `editList_run` — all of this for every run.
-/

set_option autoImplicit false

namespace RefactorCpp

open SortedSet

/-! ## Callbacks -/

/-- One call of a match callback: the confidence of its builder and the calls of `replace`. -/
structure Callback where
  confidence : Confidence
  replacements : List Replacement
  deriving DecidableEq, Repr

/-- The builder lives as long as the call. -/
def Callback.run (callback : Callback) (context : RefactoringContext) : RefactoringContext :=
  let builder := callback.replacements.foldl ReplacementBuilder.replace (.new callback.confidence)
  { context with replacements := builder.destroy context.replacements }

/-- The callbacks of one translation unit, in the order of the matches. -/
abbrev TranslationUnit := List Callback

/-- The tool on one translation unit. -/
def runUnit (context : RefactoringContext) (unit : TranslationUnit) : RefactoringContext :=
  unit.foldl (fun context callback => callback.run context) context

/-- The tool on all translation units. -/
def runTool (context : RefactoringContext) (units : List TranslationUnit) : RefactoringContext :=
  units.foldl runUnit context

/-- The replacements of all calls of `replace`. -/
def recordedBy (units : List TranslationUnit) : List Replacement :=
  units.flatMap fun unit => unit.flatMap Callback.replacements

/-- What `RefactoringTask::save` passes to `applyAllReplacements`. -/
def editList (less : Replacement → Replacement → Prop) [DecidableRel less]
    (context : RefactoringContext) : List Replacement :=
  deduplicate less context.recorded

/-! ## What a run records -/

/-- **One callback** adds its replacements and touches nothing else. -/
theorem Callback.recorded_run (callback : Callback) (context : RefactoringContext) :
    (callback.run context).recorded = context.recorded ++ callback.replacements := by
  rw [Callback.run, RefactoringContext.recorded, ReplacementBuilder.destroy_recorded,
    getReplacements_push]
  rfl

theorem recorded_runUnit (context : RefactoringContext) (unit : TranslationUnit) :
    (runUnit context unit).recorded =
      context.recorded ++ unit.flatMap Callback.replacements := by
  induction unit generalizing context with
  | nil => simp [runUnit]
  | cons callback unit ih =>
    show (runUnit (callback.run context) unit).recorded = _
    rw [ih, Callback.recorded_run, List.flatMap_cons, List.append_assoc]

/-- **A whole run**; induction on the translation units. -/
theorem recorded_runTool (context : RefactoringContext) (units : List TranslationUnit) :
    (runTool context units).recorded = context.recorded ++ recordedBy units := by
  induction units generalizing context with
  | nil => simp [runTool, recordedBy]
  | cons unit units ih =>
    show (runTool (runUnit context unit) units).recorded = _
    rw [ih, recorded_runUnit, recordedBy, recordedBy, List.flatMap_cons, List.append_assoc]

/-! ## Renaming a function -/

/-- The token at a location, as the source manager of the translation unit resolves it. -/
structure CharRange where
  filePath : Str
  offset : Nat
  length : Nat
  deriving DecidableEq, Repr

/-- The token of a range is replaced by a text. -/
def Replacement.ofRange (range : CharRange) (text : Str) : Replacement :=
  ⟨range.filePath, range.offset, range.length, text⟩

/-- The characters that are replaced. -/
def Replacement.span (r : Replacement) : CharRange := ⟨r.filePath, r.offset, r.length⟩

/-- Both renamers replace the token of the matched node by the new name. -/
def renameToken (refactoring : RenameFunction) (range : CharRange) : Callback :=
  ⟨.safe, [.ofRange range refactoring.newName]⟩

/-- `CallRenamer::run`. -/
def CallRenamer.run (refactoring : RenameFunction) (range : CharRange) : Callback :=
  renameToken refactoring range

/-- `DeclRenamer::run`. -/
def DeclRenamer.run (refactoring : RenameFunction) (range : CharRange) : Callback :=
  renameToken refactoring range

/-- A match of one of the two matchers, with the token at the location of the node. -/
inductive RenameMatch where
  | declRefExpr (range : CharRange)
  | functionDecl (range : CharRange)
  deriving DecidableEq, Repr

/-- The callback that the finder calls for a match. -/
def RenameFunctionAction.callback (refactoring : RenameFunction) : RenameMatch → Callback
  | .declRefExpr range => CallRenamer.run refactoring range
  | .functionDecl range => DeclRenamer.run refactoring range

/-- The callbacks of a tool run with one refactoring. -/
def RenameFunctionAction.units (refactoring : RenameFunction) (matched : List (List RenameMatch)) :
    List TranslationUnit :=
  matched.map fun unit => unit.map (RenameFunctionAction.callback refactoring)

/-- Every replacement has the new name as its text. -/
theorem rename_text {refactoring : RenameFunction} {matched : List (List RenameMatch)}
    {r : Replacement} (h : r ∈ recordedBy (RenameFunctionAction.units refactoring matched)) :
    r = .ofRange r.span refactoring.newName := by
  obtain ⟨unit, hunit, hr⟩ := List.mem_flatMap.1 h
  obtain ⟨ms, -, rfl⟩ := List.mem_map.1 hunit
  obtain ⟨callback, hcallback, hr⟩ := List.mem_flatMap.1 hr
  obtain ⟨m, -, rfl⟩ := List.mem_map.1 hcallback
  cases m with
  | declRefExpr range =>
    obtain rfl := List.mem_singleton.1 hr
    rfl
  | functionDecl range =>
    obtain rfl := List.mem_singleton.1 hr
    rfl

/-- Replacements of one refactoring differ in the characters they replace. -/
theorem rename_span_injective {refactoring : RenameFunction} {matched : List (List RenameMatch)}
    {r r' : Replacement} (h : r ∈ recordedBy (RenameFunctionAction.units refactoring matched))
    (h' : r' ∈ recordedBy (RenameFunctionAction.units refactoring matched))
    (hspan : r.span = r'.span) : r = r' := by
  rw [rename_text h, rename_text h', hspan]

/-! ## The edit list -/

section EditList

variable (less : Replacement → Replacement → Prop) [DecidableRel less]
  [IsStrictTotalOrder Replacement less]

/-- **The edit list depends on the set of recorded replacements only.** -/
theorem editList_enumerates (units : List TranslationUnit) :
    Enumerates less {r | r ∈ recordedBy units} (editList less (runTool {} units)) := by
  have h := deduplicate_enumerates less (runTool {} units).recorded
  rw [recorded_runTool] at h
  unfold editList
  rw [recorded_runTool]
  exact h

theorem editList_congr {units units' : List TranslationUnit}
    (h : ∀ r, r ∈ recordedBy units' ↔ r ∈ recordedBy units) :
    editList less (runTool {} units') = editList less (runTool {} units) := by
  unfold editList
  rw [recorded_runTool, recorded_runTool]
  exact deduplicate_congr less h

theorem editList_rename (refactoring : RenameFunction) (matched : List (List RenameMatch)) :
    (editList less (runTool {} (RenameFunctionAction.units refactoring matched))).Pairwise
      fun r r' => r.span ≠ r'.span := by
  have henum := editList_enumerates less (RenameFunctionAction.units refactoring matched)
  refine List.Pairwise.imp_of_mem ?_ henum.nodup
  intro r r' hr hr' hne hspan
  exact hne (rename_span_injective ((henum.mem_iff r).1 hr) ((henum.mem_iff r').1 hr') hspan)

/-- **The edit list is a function of the set of recorded replacements**: it has each of them
    exactly once and nothing else, strictly increasing, whatever the run, and never two for the
    same characters if all come from one `RenameFunction`. -/
theorem editList_run (units : List TranslationUnit) :
    (∀ r, r ∈ editList less (runTool {} units) ↔ r ∈ recordedBy units) ∧
    (∀ r ∈ recordedBy units, (editList less (runTool {} units)).count r = 1) ∧
    (editList less (runTool {} units)).Pairwise less ∧
    (∀ units', (∀ r, r ∈ recordedBy units' ↔ r ∈ recordedBy units) →
      editList less (runTool {} units') = editList less (runTool {} units)) ∧
    ∀ refactoring matched, units = RenameFunctionAction.units refactoring matched →
      (editList less (runTool {} units)).Pairwise fun r r' =>
        ¬ (r.filePath = r'.filePath ∧ r.offset = r'.offset ∧ r.length = r'.length) := by
  have henum := editList_enumerates less units
  refine ⟨henum.mem_iff, fun r hr => ?_, henum.increasing, fun units' h => editList_congr less h,
    ?_⟩
  · exact List.count_eq_one_of_mem henum.nodup ((henum.mem_iff r).2 hr)
  · rintro refactoring matched rfl
    apply (editList_rename less refactoring matched).imp
    rintro r r' hne ⟨hpath, hoffset, hlength⟩
    apply hne
    unfold Replacement.span
    rw [hpath, hoffset, hlength]

end EditList

/-- A header that two translation units include. -/
theorem editList_run_header :
    (editList Replacement.less (runTool {}
      [[⟨.safe, [⟨bytes "a.h", 4, 1, bytes "g"⟩]⟩],
        [⟨.safe, [⟨bytes "a.cpp", 9, 1, bytes "g"⟩]⟩,
          ⟨.notSafe, [⟨bytes "a.h", 4, 1, bytes "g"⟩]⟩]])).count
      ⟨bytes "a.h", 4, 1, bytes "g"⟩ = 1 :=
  (editList_run Replacement.less _).2.1 _ (by decide)

end RefactorCpp

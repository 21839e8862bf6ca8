import RefactorCpp.Refactoring.Rewriting

/-!
# Which tokens are renamed

`RenameFunctionAction::registerMatchers` and the first half of `RefactoringTask::run`.  What
Clang's matchers say of a node is not decided here: it is the field of an `Ast`.

* `recorded_iff` — **what a run records**: an edit for every node that one of the refactorings
  renames, and nothing else.
* `matchTrees_single` — with one refactoring these are the callbacks of its matches.
* `recordsTokens_matchTrees` — in one file they are the edits of the tokens that it renames.
* `conflict_iff` — with several refactorings, **two edits of the same characters** are two new
  names for one token.
-/

set_option autoImplicit false

namespace RefactorCpp

open Patches SortedSet

/-- What the matchers find out about the nodes of the syntax trees. -/
structure Ast (ν : Type) where
  /-- The token at the location of a node. -/
  location : ν → CharRange
  /-- `declRefExpr(to(functionDecl(hasName(name))))`. -/
  refersTo : Str → ν → Bool
  /-- `functionDecl(hasName(name))`. -/
  declares : Str → ν → Bool
  isInTemplateInstantiation : ν → Bool
  /-- `hasAncestor(substNonTypeTemplateParmExpr())`. -/
  isSubstituted : ν → Bool

variable {ν : Type} (ast : Ast ν)

/-! ## The finder -/

/-- A matcher with the callback for the nodes that it matches. -/
structure BoundMatcher (ν : Type) where
  matcher : ν → Bool
  callback : CharRange → Callback

/-- The matchers in the order in which they were added. -/
structure MatchFinder (ν : Type) where
  matchers : List (BoundMatcher ν) := []

/-- `MatchFinder::addMatcher`. -/
def MatchFinder.addMatcher (finder : MatchFinder ν) (matcher : ν → Bool)
    (callback : CharRange → Callback) : MatchFinder ν :=
  ⟨finder.matchers ++ [⟨matcher, callback⟩]⟩

/-- Every node of a tree is shown to every matcher. -/
def MatchFinder.matchAst (finder : MatchFinder ν) (tree : List ν) : TranslationUnit :=
  tree.flatMap fun node =>
    (finder.matchers.filter fun m => m.matcher node).map fun m => m.callback (ast.location node)

/-- `RenameFunctionAction::registerMatchers`. -/
def RenameFunctionAction.registerMatchers (refactoring : RenameFunction)
    (finder : MatchFinder ν) : MatchFinder ν :=
  let finder :=
    if refactoring.allowUnsafe then
      finder.addMatcher
        (fun node => ast.refersTo refactoring.oldName node && !ast.isSubstituted node)
        (CallRenamer.run refactoring)
    else
      finder.addMatcher
        (fun node => ast.refersTo refactoring.oldName node && !ast.isInTemplateInstantiation node)
        (CallRenamer.run refactoring)
  finder.addMatcher (ast.declares refactoring.oldName) (DeclRenamer.run refactoring)

/-- The finder with the matchers of all actions. -/
def getMatchers (actions : List RenameFunction) : MatchFinder ν :=
  actions.foldl (fun finder action => RenameFunctionAction.registerMatchers ast action finder) {}

/-- The callbacks of a run of the tool over the trees of the translation units. -/
def matchTrees (trees : List (List ν)) (actions : List RenameFunction) : List TranslationUnit :=
  trees.map (MatchFinder.matchAst ast (getMatchers ast actions))

/-! ## The nodes that are renamed -/

/-- The reference is one that the refactoring renames. -/
def renamesRef (refactoring : RenameFunction) (node : ν) : Bool :=
  ast.refersTo refactoring.oldName node &&
    !(if refactoring.allowUnsafe then ast.isSubstituted node
      else ast.isInTemplateInstantiation node)

/-- The refactoring renames the token of the node. -/
def Renames (refactoring : RenameFunction) (node : ν) : Prop :=
  renamesRef ast refactoring node = true ∨ ast.declares refactoring.oldName node = true

theorem registerMatchers_eq (refactoring : RenameFunction) (finder : MatchFinder ν) :
    (RenameFunctionAction.registerMatchers ast refactoring finder).matchers =
      finder.matchers ++ [⟨renamesRef ast refactoring, CallRenamer.run refactoring⟩,
        ⟨ast.declares refactoring.oldName, DeclRenamer.run refactoring⟩] := by
  unfold RenameFunctionAction.registerMatchers renamesRef
  cases refactoring.allowUnsafe <;> simp [MatchFinder.addMatcher]

theorem getMatchers_eq (actions : List RenameFunction) :
    (getMatchers ast actions).matchers = actions.flatMap fun action =>
      [⟨renamesRef ast action, CallRenamer.run action⟩,
        ⟨ast.declares action.oldName, DeclRenamer.run action⟩] := by
  have hrun : ∀ finder : MatchFinder ν,
      (actions.foldl (fun finder action => RenameFunctionAction.registerMatchers ast action finder)
        finder).matchers = finder.matchers ++ actions.flatMap fun action =>
          [⟨renamesRef ast action, CallRenamer.run action⟩,
            ⟨ast.declares action.oldName, DeclRenamer.run action⟩] := by
    induction actions with
    | nil => simp
    | cons action actions ih =>
      intro finder
      rw [List.foldl_cons, ih, registerMatchers_eq, List.flatMap_cons, List.append_assoc]
  exact hrun {}

/-- **What a run records**: for every node of every tree and every refactoring that renames it one
    edit of its token, and nothing else. -/
theorem recorded_iff (trees : List (List ν)) (actions : List RenameFunction) (r : Replacement) :
    r ∈ recordedBy (matchTrees ast trees actions) ↔
      ∃ action ∈ actions, ∃ node ∈ trees.flatten, Renames ast action node ∧
        r = .ofRange (ast.location node) action.newName := by
  unfold recordedBy matchTrees MatchFinder.matchAst
  simp only [getMatchers_eq, List.mem_flatMap, List.mem_map, List.mem_flatten]
  constructor
  · rintro ⟨_, ⟨tree, htree, rfl⟩, _, hcallback, hr⟩
    obtain ⟨node, hnode, hcallback⟩ := List.mem_flatMap.1 hcallback
    obtain ⟨m, hm, rfl⟩ := List.mem_map.1 hcallback
    obtain ⟨hmem, hmatch⟩ := List.mem_filter.1 hm
    obtain ⟨action, haction, hmem⟩ := List.mem_flatMap.1 hmem
    refine ⟨action, haction, node, ⟨tree, htree, hnode⟩, ?_⟩
    simp only [List.mem_cons, List.not_mem_nil, or_false] at hmem
    rcases hmem with rfl | rfl
    · exact ⟨.inl hmatch, List.mem_singleton.1 hr⟩
    · exact ⟨.inr hmatch, List.mem_singleton.1 hr⟩
  · rintro ⟨action, haction, node, ⟨tree, htree, hnode⟩, hrenames, rfl⟩
    refine ⟨_, ⟨tree, htree, rfl⟩, ?_⟩
    rcases hrenames with hmatch | hmatch
    · refine ⟨CallRenamer.run action (ast.location node), List.mem_flatMap.2 ⟨node, hnode, ?_⟩,
        List.mem_singleton_self _⟩
      refine List.mem_map.2 ⟨_, List.mem_filter.2 ⟨List.mem_flatMap.2 ⟨action, haction,
        List.mem_cons_self⟩, hmatch⟩, rfl⟩
    · refine ⟨DeclRenamer.run action (ast.location node), List.mem_flatMap.2 ⟨node, hnode, ?_⟩,
        List.mem_singleton_self _⟩
      refine List.mem_map.2 ⟨_, List.mem_filter.2 ⟨List.mem_flatMap.2 ⟨action, haction,
        List.mem_cons_of_mem _ List.mem_cons_self⟩, hmatch⟩, rfl⟩

/-- The matches of one refactoring in a tree. -/
def renameMatches (refactoring : RenameFunction) (tree : List ν) : List RenameMatch :=
  tree.flatMap fun node =>
    (if renamesRef ast refactoring node then [.declRefExpr (ast.location node)] else []) ++
      if ast.declares refactoring.oldName node then [.functionDecl (ast.location node)] else []

/-- **The run of one refactoring** consists of the callbacks of its matches. -/
theorem matchTrees_single (trees : List (List ν)) (refactoring : RenameFunction) :
    matchTrees ast trees [refactoring] =
      RenameFunctionAction.units refactoring (trees.map (renameMatches ast refactoring)) := by
  unfold matchTrees RenameFunctionAction.units
  rw [List.map_map]
  refine List.map_congr_left fun tree _ => ?_
  rw [Function.comp_apply, MatchFinder.matchAst, renameMatches, List.map_flatMap, getMatchers_eq,
    List.flatMap_singleton]
  refine List.flatMap_congr fun node _ => ?_
  cases hcall : renamesRef ast refactoring node <;>
    cases hdecl : ast.declares refactoring.oldName node <;>
    simp [hcall, hdecl, RenameFunctionAction.callback]

/-- The tokens of a file that one refactoring renames. -/
theorem recordsTokens_matchTrees (trees : List (List ν)) {refactoring : RenameFunction}
    {path : Str} {pieces : List (Piece Byte)}
    (h : ∀ range : CharRange, range.filePath = path →
      (range ∈ tokenRanges path pieces ↔
        ∃ node ∈ trees.flatten, ast.location node = range ∧ Renames ast refactoring node)) :
    RecordsTokens (matchTrees ast trees [refactoring]) refactoring.newName path pieces := by
  intro r hpath
  rw [recorded_iff]
  constructor
  · rintro ⟨action, haction, node, hnode, hrenames, rfl⟩
    obtain rfl := List.mem_singleton.1 haction
    exact ⟨_, (h _ hpath).2 ⟨node, hnode, rfl, hrenames⟩, rfl⟩
  · rintro ⟨range, hrange, rfl⟩
    obtain ⟨node, hnode, rfl, hrenames⟩ := (h range hpath).1 hrange
    exact ⟨refactoring, List.mem_singleton_self _, node, hnode, hrenames, rfl⟩

/-! ## Several refactorings -/

/-- **Two edits of the same characters** are in the edit list of a run exactly if two of its
    refactorings with different new names rename nodes at the same token. -/
theorem conflict_iff (frontend : Frontend) [IsStrictTotalOrder Replacement frontend.less]
    (trees : List (List ν)) (actions : List RenameFunction)
    (hrun : (frontend.toolRun actions).2 = matchTrees ast trees actions) :
    (∃ r ∈ RefactoringTask.replacements frontend (RefactoringTask.run frontend ⟨actions, {}⟩).2,
      ∃ r' ∈ RefactoringTask.replacements frontend (RefactoringTask.run frontend ⟨actions, {}⟩).2,
        r ≠ r' ∧ r.span = r'.span) ↔
      ∃ a ∈ actions, ∃ a' ∈ actions, a.newName ≠ a'.newName ∧
        ∃ node ∈ trees.flatten, ∃ node' ∈ trees.flatten,
          ast.location node = ast.location node' ∧ Renames ast a node ∧ Renames ast a' node' := by
  have henum := editList_enumerates frontend.less (frontend.toolRun actions).2
  have hmem : ∀ r, r ∈ RefactoringTask.replacements frontend
      (RefactoringTask.run frontend ⟨actions, {}⟩).2 ↔
        ∃ a ∈ actions, ∃ node ∈ trees.flatten, Renames ast a node ∧
          r = .ofRange (ast.location node) a.newName := fun r => by
    rw [← recorded_iff, ← hrun]
    exact henum.mem_iff r
  constructor
  · rintro ⟨r, hr, r', hr', hne, hspan⟩
    obtain ⟨a, ha, node, hnode, hrenames, rfl⟩ := (hmem r).1 hr
    obtain ⟨a', ha', node', hnode', hrenames', rfl⟩ := (hmem r').1 hr'
    have hspan : ast.location node = ast.location node' := hspan
    refine ⟨a, ha, a', ha', fun hnew => hne ?_, node, hnode, node', hnode', hspan, hrenames,
      hrenames'⟩
    rw [hspan, hnew]
  · rintro ⟨a, ha, a', ha', hnew, node, hnode, node', hnode', hloc, hrenames, hrenames'⟩
    refine ⟨_, (hmem _).2 ⟨a, ha, node, hnode, hrenames, rfl⟩, _,
      (hmem _).2 ⟨a', ha', node', hnode', hrenames', rfl⟩, fun heq => hnew ?_, hloc⟩
    exact congrArg Replacement.replacementText heq

/-- A node of a small syntax tree. -/
structure FunctionNode where
  isDecl : Bool
  name : Str
  location : CharRange
  isInstantiated : Bool := false

/-- Names are compared as they are written. -/
def writtenNames : Ast FunctionNode where
  location := FunctionNode.location
  refersTo name node := !node.isDecl && node.name == name
  declares name node := node.isDecl && node.name == name
  isInTemplateInstantiation := FunctionNode.isInstantiated
  isSubstituted _ := false

/-- A run over the trees of the translation units, in which every edit but some is applied. -/
def treesFrontend (trees : List (List FunctionNode)) (applies : Replacement → Bool) :
    Frontend where
  less := Replacement.less
  decidableLess := inferInstance
  toolRun actions := (0, matchTrees writtenNames trees actions)
  applies := applies
  rewriteBuffer := Patches.apply
  saves _ := true
  toString r := r.replacementText

instance (trees : List (List FunctionNode)) (applies : Replacement → Bool) :
    IsStrictTotalOrder Replacement (treesFrontend trees applies).less :=
  inferInstanceAs (IsStrictTotalOrder Replacement Replacement.less)

/-- The declaration of `f` in `a.c`. -/
def declarationTree : List (List FunctionNode) :=
  [[⟨true, bytes "::f", ⟨bytes "a.c", 4, 1⟩, false⟩]]

/-- `f` is to be called `g` and `h`. -/
def conflictingActions : List RenameFunction :=
  [⟨[], bytes "::f", bytes "g", false⟩, ⟨[], bytes "::f", bytes "h", false⟩]

theorem conflict_iff_f_g_h :
    ∃ r ∈ RefactoringTask.replacements (treesFrontend declarationTree fun _ => true)
        (RefactoringTask.run (treesFrontend declarationTree fun _ => true)
          ⟨conflictingActions, {}⟩).2,
      ∃ r' ∈ RefactoringTask.replacements (treesFrontend declarationTree fun _ => true)
        (RefactoringTask.run (treesFrontend declarationTree fun _ => true)
          ⟨conflictingActions, {}⟩).2,
        r ≠ r' ∧ r.span = r'.span :=
  (conflict_iff writtenNames (treesFrontend declarationTree fun _ => true) declarationTree
    conflictingActions rfl).2
    ⟨⟨[], bytes "::f", bytes "g", false⟩, List.mem_cons_self,
      ⟨[], bytes "::f", bytes "h", false⟩, List.mem_cons_of_mem _ List.mem_cons_self, by decide,
      ⟨true, bytes "::f", ⟨bytes "a.c", 4, 1⟩, false⟩, List.mem_cons_self,
      ⟨true, bytes "::f", ⟨bytes "a.c", 4, 1⟩, false⟩, List.mem_cons_self, rfl,
      .inr (by decide), .inr (by decide)⟩

end RefactorCpp

import RefactorCpp.Refactoring.Main
import RefactorCpp.Support.Patches

/-!
# Edits as a new text

The edit list of a run is a list of offsets, put together from the matches of all translation
units in any order and with any repetition.  Here it is read as what it is for: a new text of a
file.

* `filter_edits_eq` — **the edits of a file** are the patches of its tokens, each once and from
  left to right.
* `rewriteBuffer_edits` — **the edits that can be applied** replace their tokens and no other
  character in the buffer of the file.
-/

set_option autoImplicit false

namespace RefactorCpp

open SortedSet Patches

/-! ## The tokens of a file -/

/-- Where the tokens of the pieces stand in the file. -/
def tokenRanges (path : Str) (pieces : List (Piece Byte)) : List CharRange :=
  (patchesOf [] 0 pieces).map fun p => ⟨path, p.offset, p.length⟩

/-- The edits of the file at `path` that callbacks record are those of the tokens of the pieces. -/
def RecordsTokens (units : List TranslationUnit) (newName path : Str)
    (pieces : List (Piece Byte)) : Prop :=
  ∀ r : Replacement, r.filePath = path →
    (r ∈ recordedBy units ↔ ∃ range ∈ tokenRanges path pieces, r = .ofRange range newName)

/-- What is assumed of Clang's `RewriteBuffer`: it starts with the text of a file, and `ReplaceText`
    replaces the characters that stand at an offset of this text, if no earlier call reached
    that far. -/
def ReplacesText (frontend : Frontend) : Prop :=
  ∀ text, Rewrites text (frontend.rewriteBuffer text)

/-! ## The edits of one file -/

section Rewriting

variable (frontend : Frontend) [IsStrictTotalOrder Replacement frontend.less]

/-- **The edits of a file** are the patches of its tokens, from left to right. -/
theorem filter_edits_eq
    (hless : ∀ r r' : Replacement, r.filePath = r'.filePath → r.offset < r'.offset →
      frontend.less r r')
    {refactoring : RenameFunction} {path : Str} {pieces : List (Piece Byte)}
    (hrun : RecordsTokens (frontend.toolRun [refactoring]).2 refactoring.newName path pieces)
    (hne : ∀ piece ∈ pieces, piece.token ≠ []) :
    (edits frontend refactoring).filter (fun r => r.filePath = path) =
      (patchesOf refactoring.newName 0 pieces).map fun p => ⟨path, p.offset, p.length, p.text⟩ := by
  have henum := editList_enumerates frontend.less (frontend.toolRun [refactoring]).2
  have hleft : Enumerates frontend.less
      {r | r ∈ recordedBy (frontend.toolRun [refactoring]).2 ∧ r.filePath = path}
      ((edits frontend refactoring).filter fun r => r.filePath = path) := by
    refine ⟨henum.increasing.filter _, fun r => ?_⟩
    rw [List.mem_filter, decide_eq_true_iff]
    exact and_congr_left fun _ => henum.mem_iff r
  refine hleft.unique ⟨?_, fun r => ?_⟩
  · rw [List.pairwise_map]
    exact (pairwise_patchesOf refactoring.newName hne 0).imp fun {p q} hpq =>
      hless ⟨path, p.offset, p.length, p.text⟩ ⟨path, q.offset, q.length, q.text⟩ rfl hpq.1
  · rw [patchesOf_eq_map _ [], List.map_map, List.mem_map, Set.mem_ofPred_eq]
    constructor
    · rintro ⟨p, hp, rfl⟩
      exact ⟨(hrun _ rfl).2 ⟨_, List.mem_map_of_mem hp, rfl⟩, rfl⟩
    · rintro ⟨hr, hpath⟩
      obtain ⟨range, hrange, rfl⟩ := (hrun r hpath).1 hr
      obtain ⟨p, hp, rfl⟩ := List.mem_map.1 hrange
      exact ⟨p, hp, rfl⟩

/-- The new text of a matched token at a place of the file can be applied. -/
def appliesAt (path : Str) (p : Patch Byte) : Bool :=
  frontend.applies ⟨path, p.offset, p.length, p.text⟩

/-- **The applied edits rename the tokens to which they belong**, in the buffer of the file. -/
theorem rewriteBuffer_edits
    (hless : ∀ r r' : Replacement, r.filePath = r'.filePath → r.offset < r'.offset →
      frontend.less r r')
    (hbuffer : ReplacesText frontend)
    {refactoring : RenameFunction} {path : Str} {pieces : List (Piece Byte)} (rest : Str)
    (hrun : RecordsTokens (frontend.toolRun [refactoring]).2 refactoring.newName path pieces)
    (hne : ∀ piece ∈ pieces, piece.token ≠ []) :
    frontend.rewriteBuffer (Patches.text pieces rest)
        ((((edits frontend refactoring).filter frontend.applies).filter fun r =>
          r.filePath = path).map Replacement.patch) =
      Patches.text (renamedWhere (appliesAt frontend path) refactoring.newName 0 pieces) rest := by
  have hpatches : ((((patchesOf refactoring.newName 0 pieces).map fun p =>
      (⟨path, p.offset, p.length, p.text⟩ : Replacement)).filter frontend.applies).map
        Replacement.patch) =
      (patchesOf refactoring.newName 0 pieces).filter (appliesAt frontend path) := by
    rw [List.filter_map, List.map_map]
    exact List.map_id' _
  rw [List.filter_filter]
  simp only [Bool.and_comm (decide _)]
  rw [← List.filter_filter, filter_edits_eq frontend hless hrun hne, hpatches,
    (hbuffer _).filter_patchesOf hne]

end Rewriting

/-- The order of the offsets is one that `operator<` refines. -/
theorem Replacement.less_of_offset {r r' : Replacement} (h : r.offset < r'.offset) :
    Replacement.less r r' := Prod.Lex.toLex_lt_toLex.2 (.inl h)

end RefactorCpp

import Mathlib.Data.List.Basic
import Mathlib.Data.Nat.Find
import RefactorCpp.Support.Fields

/-!
# Cutting a list at a separator that is itself a list

Over an arbitrary type, with decidable equality where a cut is computed.

* `CutsAt` — what a cut at the first occurrence of the separator is, whatever computes it.
* `piecesLoop` — cut until nothing is left, with a bound on the number of cuts.
* `piecesLoop_lossless` — **the loop ends, no piece has the separator in it, and joining the
  pieces gives the list back**, less one separator at its end.
* `cutAt` — the part before the first occurrence and the part behind it; without an occurrence the
  whole list and nothing.
* `cutAt_singleton` — a separator of one element is the one of `Fields`.
-/

set_option autoImplicit false

namespace Separators

variable {α : Type}

/-- There is no occurrence and the list stays whole, or it is cut at the first one. -/
def CutsAt (sep : List α) (cut : List α → List α × List α) : Prop :=
  ∀ s, (cut s = (s, []) ∧ ¬ sep <:+: s) ∨
    (s = (cut s).1 ++ sep ++ (cut s).2 ∧
      ∀ p r, s = p ++ sep ++ r → (cut s).1.length ≤ p.length)

/-- There is one first occurrence, so two cuts at it agree. -/
theorem CutsAt.unique {sep : List α} {cut cut' : List α → List α × List α}
    (h : CutsAt sep cut) (h' : CutsAt sep cut') : cut = cut' := by
  funext s
  rcases h s with ⟨hs, hno⟩ | ⟨hs, hmin⟩
  · rcases h' s with ⟨hs', -⟩ | ⟨hs', -⟩
    · rw [hs, hs']
    · exact absurd ⟨_, _, hs'.symm⟩ hno
  · rcases h' s with ⟨-, hno'⟩ | ⟨hs', hmin'⟩
    · exact absurd ⟨_, _, hs.symm⟩ hno'
    · have hlen := Nat.le_antisymm (hmin _ _ hs') (hmin' _ _ hs)
      have heq := hs.symm.trans hs'
      rw [List.append_assoc, List.append_assoc] at heq
      obtain ⟨hfirst, hrest⟩ := List.append_inj heq hlen
      exact Prod.ext hfirst (List.append_cancel_left hrest)

theorem CutsAt.length_lt {sep : List α} {cut : List α → List α × List α} (hcut : CutsAt sep cut)
    (hne : sep ≠ []) {s : List α} (h : s ≠ []) : (cut s).2.length < s.length := by
  rcases hcut s with ⟨hs, -⟩ | ⟨hs, -⟩
  · rw [hs]
    exact List.length_pos_iff.2 h
  · have hlen := congrArg List.length hs
    have hpos := List.length_pos_iff.2 hne
    simp only [List.length_append] at hlen
    omega

/-- A second occurrence inside the first part would start earlier than the first one. -/
theorem CutsAt.not_infix {sep : List α} {cut : List α → List α × List α} (hcut : CutsAt sep cut)
    (hne : sep ≠ []) (s : List α) : ¬ sep <:+: (cut s).1 := by
  rcases hcut s with ⟨hs, hno⟩ | ⟨hs, hmin⟩
  · rw [hs]
    exact hno
  · rintro ⟨x, y, hxy⟩
    have hle := hmin x (y ++ sep ++ (cut s).2) (by
      rw [← hxy] at hs
      simpa using hs)
    have hlen := congrArg List.length hxy
    have hpos := List.length_pos_iff.2 hne
    simp only [List.length_append] at hlen
    omega

/-! ## The loop -/

/-- The pieces, or `none` if the list is not used up in fewer cuts. -/
def piecesLoop (cut : List α → List α × List α) : Nat → List α → Option (List (List α))
  | 0, _ => none
  | n + 1, s => if s = [] then some [] else (piecesLoop cut n (cut s).2).map ((cut s).1 :: ·)

/-- Joining one more piece in front. -/
theorem intercalate_cons_append {sep a r : List α} {ps : List (List α)}
    (hnil : ps = [] ↔ r = []) (hps : sep.intercalate ps = r ∨ sep.intercalate ps ++ sep = r) :
    sep.intercalate (a :: ps) = a ++ sep ++ r ∨
      sep.intercalate (a :: ps) ++ sep = a ++ sep ++ r := by
  cases ps with
  | nil =>
    obtain rfl := hnil.1 rfl
    rw [List.intercalate_singleton, List.append_nil]
    exact .inr rfl
  | cons p ps =>
    rw [List.intercalate_cons_cons]
    rcases hps with h | h
    · exact .inl (by rw [← h, List.append_assoc])
    · exact .inr (by rw [← h]; simp)

/-- **The loop ends and loses nothing**; induction on the bound, the list gets shorter with every
    cut. -/
theorem piecesLoop_lossless {sep : List α} {cut : List α → List α × List α}
    (hcut : CutsAt sep cut) (hne : sep ≠ []) {n : Nat} {s : List α} (hlen : s.length < n) :
    ∃ ps, piecesLoop cut n s = some ps ∧ (ps = [] ↔ s = []) ∧ (∀ p ∈ ps, ¬ sep <:+: p) ∧
      (sep.intercalate ps = s ∨ sep.intercalate ps ++ sep = s) := by
  induction n generalizing s with
  | zero => exact absurd hlen (Nat.not_lt_zero _)
  | succ n ih =>
    by_cases hs : s = []
    · refine ⟨[], ?_, ?_, ?_, ?_⟩
      · rw [piecesLoop, if_pos hs]
      · exact iff_of_true rfl hs
      · simp
      · exact .inl hs.symm
    · have hshort := hcut.length_lt hne hs
      obtain ⟨ps, hrun, hnil, hfree, hjoin⟩ := ih (s := (cut s).2) (by omega)
      refine ⟨(cut s).1 :: ps, ?_, ?_, ?_, ?_⟩
      · rw [piecesLoop, if_neg hs, hrun, Option.map_some]
      · exact iff_of_false (List.cons_ne_nil _ _) hs
      · intro p hp
        rcases List.mem_cons.1 hp with rfl | hp
        · exact hcut.not_infix hne s
        · exact hfree p hp
      · rcases hcut s with ⟨hcs, -⟩ | ⟨hcs, -⟩
        · rw [hcs] at hnil ⊢
          obtain rfl := hnil.2 rfl
          exact .inl List.intercalate_singleton
        · have hcons := intercalate_cons_append (a := (cut s).1) hnil hjoin
          rwa [← hcs] at hcons

/-! ## Computed cuts -/

variable [DecidableEq α]

/-- The part before the first occurrence of the separator, and the rest behind it. -/
def cutAt (sep s : List α) : List α × List α := (s.dropInfix? sep).getD (s, [])

/-- An empty separator is found at once. -/
@[simp] theorem cutAt_nil (s : List α) : cutAt [] s = ([], s) := by
  rw [cutAt, List.dropInfix?_nil, Option.getD_some]

/-- A separator that occurs is found: the shortest part before it exists. -/
theorem dropInfix?_ne_none {sep s : List α} (h : sep <:+: s) : s.dropInfix? sep ≠ none := by
  classical
  have hex : ∃ n p r, s = p ++ sep ++ r ∧ p.length = n := by
    obtain ⟨p, r, hs⟩ := h
    exact ⟨_, p, r, hs.symm, rfl⟩
  obtain ⟨p, r, hs, hlen⟩ := Nat.find_spec hex
  have hfirst : s.dropInfix? sep = some (p, r) := by
    apply List.dropInfix?_eq_some_iff.2
    refine ⟨⟨sep, hs, beq_self_eq_true sep⟩, ?_⟩
    intro p' sep' r' hs' hsep
    obtain rfl := eq_of_beq hsep
    rw [hlen]
    exact Nat.find_min' hex ⟨p', r', hs', rfl⟩
  rw [hfirst]
  exact Option.some_ne_none _

theorem cutAt_cutsAt (sep : List α) : CutsAt sep (cutAt sep) := by
  intro s
  unfold cutAt
  cases h : s.dropInfix? sep with
  | none => exact .inl ⟨rfl, fun hin => dropInfix?_ne_none hin h⟩
  | some parts =>
    obtain ⟨⟨sep', hs, hsep⟩, hmin⟩ := List.dropInfix?_eq_some_iff.1 h
    obtain rfl := eq_of_beq hsep
    exact .inr ⟨hs, fun p r hp => hmin p sep' r hp hsep⟩

/-- A cut at a single element is one at the list of that element. -/
theorem cut_cutsAt (sep : α) : CutsAt [sep] (Fields.cut sep) := by
  intro s
  rcases Fields.first_separator sep s with hno | ⟨a, r, rfl, ha⟩
  · exact .inl ⟨Fields.cut_of_not_mem hno, fun hin => hno (hin.mem (List.mem_singleton_self sep))⟩
  · rw [Fields.cut_append_cons ha]
    refine .inr ⟨by simp, ?_⟩
    intro p r' hp
    by_contra hlen
    have hlt : p.length < a.length := Nat.lt_of_not_le hlen
    -- the separator behind `p` would lie in `a`
    have hget : (a ++ sep :: r)[p.length]? = some sep := by
      rw [hp]
      simp
    rw [List.getElem?_append_left hlt] at hget
    exact ha (List.mem_of_getElem? hget)

theorem cutAt_singleton (sep : α) : cutAt [sep] = Fields.cut sep :=
  (cutAt_cutsAt [sep]).unique (cut_cutsAt sep)

/-- With a single element as separator the pieces are those of `Fields.pieces`. -/
theorem piecesLoop_cut (sep : α) {n : Nat} {s : List α} (hlen : s.length < n) :
    piecesLoop (Fields.cut sep) n s = some (Fields.pieces sep s) := by
  induction n generalizing s with
  | zero => exact absurd hlen (Nat.not_lt_zero _)
  | succ n ih =>
    by_cases hs : s = []
    · rw [piecesLoop, if_pos hs, hs, Fields.pieces_nil]
    · have hshort := Fields.cut_length sep hs
      rw [piecesLoop, if_neg hs, ih (by omega), Fields.pieces_of_ne_nil hs, Option.map_some]

end Separators

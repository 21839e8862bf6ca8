import Mathlib.Data.List.Basic
import Mathlib.Data.List.Induction

/-!
# Patching a text

Over an arbitrary type of characters:

* `Patch`, `apply` — replacing parts of a text that are given by offset and length, in one pass
  from left to right.  All offsets count from the start of the unpatched text.
* `Piece`, `text`, `patchesOf` — a text written as pieces, each a token behind a gap, and the
  patches that replace every token.
* `inOrder_patchesOf` — the patches of tokens that are not empty are in order.
* `apply_filter_patchesOf` — **some of these patches replace their tokens and nothing else**.
* `Rewrites`, `Rewrites.eq_apply` — a buffer that is patched step by step **ends as the patched
  text**, if the patches are in order.
-/

set_option autoImplicit false

namespace Patches

variable {α : Type}

/-- The `length` characters from `offset` on are replaced by `text`. -/
structure Patch (α : Type) where
  offset : Nat
  length : Nat
  text : List α

/-- Patches a text of which `k` characters are already behind us. -/
def applyFrom : Nat → List α → List (Patch α) → List α
  | _, s, [] => s
  | k, s, p :: ps =>
    s.take (p.offset - k) ++ p.text ++
      applyFrom (p.offset + p.length) (s.drop (p.offset + p.length - k)) ps

/-- Patches a whole text. -/
def apply (s : List α) (ps : List (Patch α)) : List α := applyFrom 0 s ps

/-- The second patch is behind the first one. -/
def Patch.Before (p q : Patch α) : Prop := p.offset < q.offset ∧ p.offset + p.length ≤ q.offset

/-- Patches of different parts of a text, from left to right. -/
structure InOrder (s : List α) (ps : List (Patch α)) : Prop where
  before : ps.Pairwise Patch.Before
  inside : ∀ p ∈ ps, p.offset + p.length ≤ s.length

theorem InOrder.filter {s : List α} {ps : List (Patch α)} (h : InOrder s ps)
    (q : Patch α → Bool) : InOrder s (ps.filter q) :=
  ⟨h.before.filter q, fun p hp => h.inside p (List.mem_of_mem_filter hp)⟩

/-! ## Pieces -/

/-- A token and what stands between it and the token before it. -/
structure Piece (α : Type) where
  gap : List α
  token : List α

/-- The text of pieces, with `rest` behind the last token. -/
def text (pieces : List (Piece α)) (rest : List α) : List α :=
  (pieces.flatMap fun piece => piece.gap ++ piece.token) ++ rest

/-- The pieces with another text for every token. -/
def renamed (new : List α) (pieces : List (Piece α)) : List (Piece α) :=
  pieces.map fun piece => ⟨piece.gap, new⟩

@[simp] theorem renamed_renamed (new new' : List α) (pieces : List (Piece α)) :
    renamed new' (renamed new pieces) = renamed new' pieces := by
  unfold renamed
  rw [List.map_map]
  rfl

/-- Renaming tokens to what they are. -/
theorem renamed_self {new : List α} {pieces : List (Piece α)}
    (h : ∀ piece ∈ pieces, piece.token = new) : renamed new pieces = pieces := by
  unfold renamed
  conv_rhs => rw [← List.map_id pieces]
  refine List.map_congr_left fun piece hpiece => ?_
  rw [← h piece hpiece]
  rfl

/-- One patch for every token; the text before the pieces has `k` characters. -/
def patchesOf (new : List α) : Nat → List (Piece α) → List (Patch α)
  | _, [] => []
  | k, piece :: pieces =>
    ⟨k + piece.gap.length, piece.token.length, new⟩ ::
      patchesOf new (k + piece.gap.length + piece.token.length) pieces

theorem text_cons (piece : Piece α) (pieces : List (Piece α)) (rest : List α) :
    text (piece :: pieces) rest = piece.gap ++ (piece.token ++ text pieces rest) := by
  simp [text]

/-! ## The order of the patches -/

theorem le_offset_of_mem_patchesOf {new : List α} {pieces : List (Piece α)} {k : Nat}
    {p : Patch α} (h : p ∈ patchesOf new k pieces) : k ≤ p.offset := by
  induction pieces generalizing k with
  | nil => cases h
  | cons piece pieces ih =>
    rcases List.mem_cons.1 h with rfl | h
    · exact Nat.le_add_right _ _
    · have := ih h
      omega

theorem end_le_of_mem_patchesOf {new : List α} {pieces : List (Piece α)} (rest : List α) {k : Nat}
    {p : Patch α} (h : p ∈ patchesOf new k pieces) :
    p.offset + p.length ≤ k + (text pieces rest).length := by
  induction pieces generalizing k with
  | nil => cases h
  | cons piece pieces ih =>
    rw [text_cons, List.length_append, List.length_append]
    rcases List.mem_cons.1 h with rfl | h
    · simp only
      omega
    · have := ih h
      omega

theorem pairwise_patchesOf (new : List α) {pieces : List (Piece α)}
    (h : ∀ piece ∈ pieces, piece.token ≠ []) (k : Nat) :
    (patchesOf new k pieces).Pairwise Patch.Before := by
  induction pieces generalizing k with
  | nil => exact List.Pairwise.nil
  | cons piece pieces ih =>
    refine List.Pairwise.cons (fun q hq => ?_) (ih (fun p hp => h p (List.mem_cons_of_mem _ hp)) _)
    have hle := le_offset_of_mem_patchesOf hq
    have hpos := List.length_pos_iff.2 (h piece List.mem_cons_self)
    unfold Patch.Before
    simp only
    omega

/-- **The patches of tokens are in order**, unless a token is empty. -/
theorem inOrder_patchesOf (new rest : List α) {pieces : List (Piece α)}
    (h : ∀ piece ∈ pieces, piece.token ≠ []) :
    InOrder (text pieces rest) (patchesOf new 0 pieces) := by
  refine ⟨pairwise_patchesOf new h 0, fun p hp => ?_⟩
  have hend := end_le_of_mem_patchesOf rest hp
  rwa [Nat.zero_add] at hend

/-- The tokens that are replaced do not depend on the new text. -/
theorem patchesOf_eq_map (new new' : List α) (pieces : List (Piece α)) (k : Nat) :
    patchesOf new k pieces = (patchesOf new' k pieces).map fun p => { p with text := new } := by
  induction pieces generalizing k with
  | nil => rfl
  | cons piece pieces ih => rw [patchesOf, patchesOf, List.map_cons, ih]

/-! ## Some of the patches -/

/-- The pieces with another text for the tokens whose patches are picked. -/
def renamedWhere (q : Patch α → Bool) (new : List α) : Nat → List (Piece α) → List (Piece α)
  | _, [] => []
  | k, piece :: pieces =>
    (if q ⟨k + piece.gap.length, piece.token.length, new⟩ then ⟨piece.gap, new⟩ else piece) ::
      renamedWhere q new (k + piece.gap.length + piece.token.length) pieces

/-- The text in front of the first patch is kept. -/
theorem applyFrom_append {k : Nat} {s : List α} (t : List α) {ps : List (Patch α)}
    (h : ∀ p ∈ ps, k + s.length ≤ p.offset) :
    applyFrom k (s ++ t) ps = s ++ applyFrom (k + s.length) t ps := by
  cases ps with
  | nil => rfl
  | cons p ps =>
    have hp := h p List.mem_cons_self
    have htake : (s ++ t).take (p.offset - k) = s ++ t.take (p.offset - (k + s.length)) := by
      rw [show p.offset - k = s.length + (p.offset - (k + s.length)) by omega,
        List.take_length_add_append]
    have hdrop : (s ++ t).drop (p.offset + p.length - k) =
        t.drop (p.offset + p.length - (k + s.length)) := by
      rw [show p.offset + p.length - k = s.length + (p.offset + p.length - (k + s.length)) by omega,
        List.drop_length_add_append]
    rw [applyFrom, applyFrom, htake, hdrop, List.append_assoc, List.append_assoc,
      List.append_assoc]

theorem applyFrom_filter_patchesOf (q : Patch α → Bool) (new rest : List α)
    (pieces : List (Piece α)) (k : Nat) :
    applyFrom k (text pieces rest) ((patchesOf new k pieces).filter q) =
      text (renamedWhere q new k pieces) rest := by
  induction pieces generalizing k with
  | nil => rfl
  | cons piece pieces ih =>
    rw [patchesOf, renamedWhere]
    cases hq : q ⟨k + piece.gap.length, piece.token.length, new⟩ with
    | true =>
      have htake : (text (piece :: pieces) rest).take (k + piece.gap.length - k) = piece.gap := by
        rw [text_cons, Nat.add_sub_cancel_left, List.take_left]
      have hdrop : (text (piece :: pieces) rest).drop
          (k + piece.gap.length + piece.token.length - k) = text pieces rest := by
        rw [text_cons, ← List.append_assoc, List.drop_left' (by rw [List.length_append]; omega)]
      rw [List.filter_cons_of_pos hq, applyFrom, htake, hdrop, ih, if_pos rfl, text_cons,
        List.append_assoc]
    | false =>
      -- the token goes with the text in front of the next patch
      have hbehind : ∀ p ∈ (patchesOf new (k + piece.gap.length + piece.token.length)
          pieces).filter q, k + (piece.gap ++ piece.token).length ≤ p.offset := by
        intro p hp
        have hle := le_offset_of_mem_patchesOf (List.mem_of_mem_filter hp)
        rw [List.length_append]
        omega
      rw [List.filter_cons_of_neg (by simp [hq]), text_cons, ← List.append_assoc,
        applyFrom_append _ hbehind, List.length_append, ← Nat.add_assoc, ih, if_neg (by simp),
        text_cons, List.append_assoc]

/-- **Some of the tokens are replaced**, and everything else stays. -/
theorem apply_filter_patchesOf (q : Patch α → Bool) (new rest : List α)
    (pieces : List (Piece α)) :
    apply (text pieces rest) ((patchesOf new 0 pieces).filter q) =
      text (renamedWhere q new 0 pieces) rest :=
  applyFrom_filter_patchesOf q new rest pieces 0

/-- All the patches are picked. -/
theorem renamedWhere_eq_renamed {q : Patch α → Bool} {new : List α} {pieces : List (Piece α)}
    {k : Nat} (h : ∀ p ∈ patchesOf new k pieces, q p = true) :
    renamedWhere q new k pieces = renamed new pieces := by
  induction pieces generalizing k with
  | nil => rfl
  | cons piece pieces ih =>
    obtain ⟨hp, hps⟩ := List.forall_mem_cons.1 h
    rw [renamedWhere, if_pos hp, ih hps]
    rfl

/-- None of the patches is picked. -/
theorem renamedWhere_eq_self {q : Patch α → Bool} {new : List α} {pieces : List (Piece α)}
    {k : Nat} (h : ∀ p ∈ patchesOf new k pieces, q p = false) :
    renamedWhere q new k pieces = pieces := by
  induction pieces generalizing k with
  | nil => rfl
  | cons piece pieces ih =>
    obtain ⟨hp, hps⟩ := List.forall_mem_cons.1 h
    rw [renamedWhere, if_neg (by simp [hp]), ih hps]

/-! ## One patch after the other -/

/-- A buffer that holds the text at first and is patched step by step: behind the patches so far it
    still ends with the unpatched text, and there the next patch is made. -/
structure Rewrites (s : List α) (buffer : List (Patch α) → List α) : Prop where
  nil : buffer [] = s
  snoc : ∀ ps p kept, InOrder s (ps ++ [p]) → buffer ps = kept ++ s.drop p.offset →
    buffer (ps ++ [p]) = kept ++ p.text ++ s.drop (p.offset + p.length)

/-- One more patch behind the others; induction on the patches in front of it. -/
theorem applyFrom_concat {k : Nat} (s : List α) {ps : List (Patch α)} {p : Patch α}
    (hk : ∀ q ∈ ps ++ [p], k ≤ q.offset) (hps : (ps ++ [p]).Pairwise Patch.Before) :
    ∃ kept, applyFrom k s ps = kept ++ s.drop (p.offset - k) ∧
      applyFrom k s (ps ++ [p]) = kept ++ p.text ++ s.drop (p.offset + p.length - k) := by
  induction ps generalizing k s with
  | nil => exact ⟨s.take (p.offset - k), (List.take_append_drop _ s).symm, rfl⟩
  | cons q ps ih =>
    obtain ⟨hq, hps⟩ := List.pairwise_cons.1 hps
    have hkq := hk q List.mem_cons_self
    obtain ⟨-, hqp⟩ := hq p (by simp)
    obtain ⟨kept, hkept, hconcat⟩ :=
      ih (s.drop (q.offset + q.length - k)) (fun x hx => (hq x hx).2) hps
    have hdrop : ∀ n, q.offset + q.length ≤ n →
        (s.drop (q.offset + q.length - k)).drop (n - (q.offset + q.length)) = s.drop (n - k) := by
      intro n hn
      rw [List.drop_drop]
      congr 1
      omega
    rw [hdrop _ hqp] at hkept
    rw [hdrop _ (by omega)] at hconcat
    refine ⟨s.take (q.offset - k) ++ q.text ++ kept, ?_, ?_⟩
    · rw [applyFrom, hkept]
      simp only [List.append_assoc]
    · rw [List.cons_append, applyFrom, hconcat]
      simp only [List.append_assoc]

theorem apply_concat {s : List α} {ps : List (Patch α)} {p : Patch α}
    (h : InOrder s (ps ++ [p])) :
    ∃ kept, apply s ps = kept ++ s.drop p.offset ∧
      apply s (ps ++ [p]) = kept ++ p.text ++ s.drop (p.offset + p.length) :=
  applyFrom_concat (k := 0) s (fun _ _ => Nat.zero_le _) h.before

/-- **A buffer that is patched step by step ends as the patched text.** -/
theorem Rewrites.eq_apply {s : List α} {buffer : List (Patch α) → List α}
    (h : Rewrites s buffer) {ps : List (Patch α)} (hps : InOrder s ps) :
    buffer ps = apply s ps := by
  induction ps using List.reverseRecOn with
  | nil => exact h.nil
  | append_singleton ps p ih =>
    obtain ⟨kept, hkept, hconcat⟩ := apply_concat hps
    have hbefore : InOrder s ps :=
      ⟨(List.pairwise_append.1 hps.before).1,
        fun q hq => hps.inside q (List.mem_append_left _ hq)⟩
    rw [hconcat]
    exact h.snoc ps p kept hps ((ih hbefore).trans hkept)

/-- Patching in one pass is patching step by step. -/
theorem rewrites_apply (s : List α) : Rewrites s (apply s) := by
  refine ⟨rfl, fun ps p kept hps hkept => ?_⟩
  obtain ⟨kept', hkept', hconcat⟩ := apply_concat hps
  obtain rfl : kept' = kept := List.append_cancel_right (hkept'.symm.trans hkept)
  exact hconcat

/-- **Some of the tokens are replaced** in the buffer, and everything else stays. -/
theorem Rewrites.filter_patchesOf {new rest : List α} {pieces : List (Piece α)}
    {buffer : List (Patch α) → List α} (h : Rewrites (text pieces rest) buffer)
    (hne : ∀ piece ∈ pieces, piece.token ≠ []) (q : Patch α → Bool) :
    buffer ((patchesOf new 0 pieces).filter q) = text (renamedWhere q new 0 pieces) rest := by
  rw [h.eq_apply ((inOrder_patchesOf new rest hne).filter q), apply_filter_patchesOf]

end Patches

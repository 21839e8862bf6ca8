import Mathlib.Data.List.TakeWhile

/-!
# Runs of a class and blocks of a list

General list facts, over an arbitrary element type:

* `startsIn` — whether a list begins with an element of a class, and how the longest run of a
  class behaves when something that does not begin in the class is appended;
* `append_eq_pair` — where a cut lies with regard to two neighbours;
* `blockIndex` — in which block of a list of blocks the `k`-th element of the flattened list
  lies; a cut between blocks separates positions (`blockIndex_lt_of_cut`), and neighbours in one
  block (`InOneBlock`) have the same index;
* `CutAt` — after which elements a block ends, through the operations on lists of blocks;
* `flatMap_eq_map_iff` — when a `flatMap` contributes exactly one block for each element.
-/

set_option autoImplicit false

namespace Runs

variable {α β : Type} {p : α → Bool}

/-- The list begins with an element of the class `p`. -/
def startsIn (p : α → Bool) : List α → Bool
  | [] => false
  | x :: _ => p x

@[simp] theorem startsIn_nil : startsIn p [] = false := rfl

@[simp] theorem startsIn_cons (x : α) (s : List α) : startsIn p (x :: s) = p x := rfl

theorem exists_cons_of_startsIn {s : List α} (h : startsIn p s = true) :
    ∃ x r, s = x :: r ∧ p x = true := by
  cases s with
  | nil => cases h
  | cons x r => exact ⟨x, r, rfl, h⟩

theorem startsIn_dropWhile (p : α → Bool) (s : List α) : startsIn p (s.dropWhile p) = false := by
  induction s with
  | nil => rfl
  | cons x s ih =>
    cases hx : p x with
    | true => simpa [hx] using ih
    | false => simp [hx]

theorem startsIn_append {u v : List α} (hv : startsIn p v = false) :
    startsIn p (u ++ v) = startsIn p u := by
  cases u with
  | nil => exact hv
  | cons x u => rfl

/-- What does not begin in a class does not begin in a smaller one. -/
theorem startsIn_of_imp {q : α → Bool} {s : List α} (h : ∀ x, q x = true → p x = true)
    (hs : startsIn p s = false) : startsIn q s = false := by
  cases s with
  | nil => rfl
  | cons x s =>
    rw [startsIn_cons] at hs ⊢
    cases hq : q x with
    | false => rfl
    | true => rw [h x hq] at hs; cases hs

theorem startsIn_of_forall {s : List α} (h : ∀ x ∈ s, p x = false) : startsIn p s = false := by
  cases s with
  | nil => rfl
  | cons x s => exact h x List.mem_cons_self

theorem startsIn_of_head? {s : List α} (h : ∀ x ∈ s.head?, p x = false) :
    startsIn p s = false := by
  cases s with
  | nil => rfl
  | cons x s => exact h x rfl

theorem takeWhile_of_startsIn {s : List α} (h : startsIn p s = false) : s.takeWhile p = [] := by
  cases s with
  | nil => rfl
  | cons x s =>
    rw [startsIn_cons] at h
    simp [h]

theorem dropWhile_of_startsIn {s : List α} (h : startsIn p s = false) : s.dropWhile p = s := by
  cases s with
  | nil => rfl
  | cons x s =>
    rw [startsIn_cons] at h
    simp [h]

theorem dropWhile_congr {q : α → Bool} {s : List α} (h : ∀ x ∈ s, p x = q x) :
    s.dropWhile p = s.dropWhile q := by
  induction s with
  | nil => rfl
  | cons x s ih =>
    rw [List.dropWhile_cons, List.dropWhile_cons, h x List.mem_cons_self,
      ih fun y hy => h y (List.mem_cons_of_mem _ hy)]

theorem takeWhile_append {u v : List α} (hv : startsIn p v = false) :
    (u ++ v).takeWhile p = u.takeWhile p := by
  induction u with
  | nil => simpa using takeWhile_of_startsIn hv
  | cons x u ih => simp only [List.cons_append, List.takeWhile_cons, ih]

theorem dropWhile_append {u v : List α} (hv : startsIn p v = false) :
    (u ++ v).dropWhile p = u.dropWhile p ++ v := by
  induction u with
  | nil => simpa using dropWhile_of_startsIn hv
  | cons x u ih =>
    cases hx : p x with
    | true => simpa [hx] using ih
    | false => simp [hx]

/-- A run that cannot be continued is taken whole. -/
theorem takeWhile_run {u v : List α} (hu : ∀ x ∈ u, p x = true) (hv : startsIn p v = false) :
    (u ++ v).takeWhile p = u := by
  rw [List.takeWhile_append_of_pos hu, takeWhile_of_startsIn hv, List.append_nil]

theorem dropWhile_run {u v : List α} (hu : ∀ x ∈ u, p x = true) (hv : startsIn p v = false) :
    (u ++ v).dropWhile p = v := by
  rw [List.dropWhile_append_of_pos hu, dropWhile_of_startsIn hv]

/-- A list is a run of a class followed by something that does not continue it. -/
theorem run_split (p : α → Bool) (s : List α) :
    ∃ u v, s = u ++ v ∧ (∀ x ∈ u, p x = true) ∧ startsIn p v = false :=
  ⟨s.takeWhile p, s.dropWhile p, List.takeWhile_append_dropWhile.symm,
    fun _ hx => List.mem_takeWhile_imp hx, startsIn_dropWhile _ _⟩

/-! ## Joined lists -/

theorem startsIn_intercalate (d : List α) {b : List α} (hb : b ≠ []) (bs : List (List α)) :
    startsIn p (d.intercalate (b :: bs)) = startsIn p b := by
  obtain ⟨x, r, rfl⟩ := List.exists_cons_of_ne_nil hb
  rw [List.intercalate_cons_cons_left, startsIn_cons, startsIn_cons]

theorem intercalate_nil_left (bs : List (List α)) : List.intercalate [] bs = bs.flatten := by
  induction bs with
  | nil => rfl
  | cons b bs ih =>
    cases bs with
    | nil => simp [List.intercalate_singleton]
    | cons b' bs => rw [List.intercalate_cons_cons, ih, List.append_nil, ← List.flatten_cons]

theorem mem_of_mem_intercalate {d : List α} {bs : List (List α)} {x : α}
    (h : x ∈ d.intercalate bs) : x ∈ d ∨ ∃ b ∈ bs, x ∈ b := by
  induction bs with
  | nil => cases h
  | cons b bs ih =>
    cases bs with
    | nil =>
      rw [List.intercalate_singleton] at h
      exact .inr ⟨b, List.mem_cons_self, h⟩
    | cons b' bs =>
      rw [List.intercalate_cons_cons, List.mem_append, List.mem_append] at h
      rcases h with (h | h) | h
      · exact .inr ⟨b, List.mem_cons_self, h⟩
      · exact .inl h
      · rcases ih h with h | ⟨y, hy, hxy⟩
        · exact .inl h
        · exact .inr ⟨y, List.mem_cons_of_mem _ hy, hxy⟩

/-- What does not pass a filter may stand between the lists. -/
theorem filter_intercalate {d : List α} (hd : ∀ x ∈ d, p x = false) (bs : List (List α)) :
    (d.intercalate bs).filter p = bs.flatten.filter p := by
  have hnil : d.filter p = [] := List.filter_eq_nil_iff.2 fun x hx => by simp [hd x hx]
  induction bs with
  | nil => rfl
  | cons b bs ih =>
    cases bs with
    | nil => simp [List.intercalate_singleton]
    | cons b' bs =>
      rw [List.intercalate_cons_cons, List.filter_append, List.filter_append, hnil, List.append_nil,
        ih, ← List.filter_append, ← List.flatten_cons]

/-! ## Neighbours -/

/-- An element of a concatenation is an element of the second part or of the first one. -/
theorem append_eq_cons {u v a b : List α} {y : α} (h : u ++ v = a ++ y :: b) :
    (∃ a', a = u ++ a' ∧ v = a' ++ y :: b) ∨ ∃ e, u = a ++ y :: e ∧ b = e ++ v := by
  rcases List.append_eq_append_iff.1 h with ⟨a', ha, hv⟩ | ⟨e, hu, he⟩
  · exact .inl ⟨a', ha, hv⟩
  · cases e with
    | nil => exact .inl ⟨[], by simpa using hu.symm, he.symm⟩
    | cons z e =>
      obtain ⟨rfl, hb⟩ := List.cons.inj he
      exact .inr ⟨e, hu, hb⟩

/-- A cut lies before two neighbours, between them or behind them. -/
theorem append_eq_pair {u v a b : List α} {x y : α} (h : u ++ v = a ++ x :: y :: b) :
    (∃ a', a = u ++ a' ∧ v = a' ++ x :: y :: b) ∨ (u = a ++ [x] ∧ v = y :: b) ∨
    ∃ q, u = a ++ x :: y :: q ∧ b = q ++ v := by
  rcases List.append_eq_append_iff.1 h with ⟨a', ha, hv⟩ | ⟨e, hu, he⟩
  · exact .inl ⟨a', ha, hv⟩
  · cases e with
    | nil => exact .inl ⟨[], by simp [hu], he.symm⟩
    | cons z e =>
      obtain ⟨rfl, hrest⟩ := List.cons.inj he
      cases e with
      | nil => exact .inr (.inl ⟨hu, hrest.symm⟩)
      | cons z' q =>
        obtain ⟨rfl, hb⟩ := List.cons.inj hrest
        exact .inr (.inr ⟨q, hu, hb⟩)

/-! ## Blocks -/

/-- The number of the block that holds element `k` of the flattened list. -/
def blockIndex : List (List α) → Nat → Nat
  | [], _ => 0
  | b :: bs, k => if k < b.length then 0 else blockIndex bs (k - b.length) + 1

theorem blockIndex_append_left (bs cs : List (List α)) {k : Nat} (hk : k < bs.flatten.length) :
    blockIndex (bs ++ cs) k = blockIndex bs k ∧ blockIndex bs k < bs.length := by
  induction bs generalizing k with
  | nil => simp at hk
  | cons b bs ih =>
    simp only [List.cons_append, blockIndex, List.length_cons]
    split
    · exact ⟨rfl, Nat.succ_pos _⟩
    · rename_i hb
      simp only [List.flatten_cons, List.length_append] at hk
      obtain ⟨heq, hlt⟩ := ih (k := k - b.length) (by omega)
      exact ⟨by rw [heq], by omega⟩

theorem blockIndex_append_right (bs cs : List (List α)) {k : Nat} (hk : bs.flatten.length ≤ k) :
    blockIndex (bs ++ cs) k = bs.length + blockIndex cs (k - bs.flatten.length) := by
  induction bs generalizing k with
  | nil => simp
  | cons b bs ih =>
    simp only [List.flatten_cons, List.length_append] at hk
    simp only [List.cons_append, blockIndex, List.length_cons, List.flatten_cons,
      List.length_append]
    rw [if_neg (by omega), ih (by omega), Nat.sub_sub]
    omega

/-- **A cut between blocks separates positions.** -/
theorem blockIndex_lt_of_cut (bs cs : List (List α)) {i j : Nat} (hi : i < bs.flatten.length)
    (hj : bs.flatten.length ≤ j) : blockIndex (bs ++ cs) i < blockIndex (bs ++ cs) j := by
  obtain ⟨heq, hlt⟩ := blockIndex_append_left bs cs hi
  rw [heq, blockIndex_append_right bs cs hj]
  omega

/-- `x` and `y`, which come after the elements `a`, are neighbours in one block. -/
def InOneBlock (bs : List (List α)) (a : List α) (x y : α) : Prop :=
  ∃ cs p q ds, bs = cs ++ (p ++ x :: y :: q) :: ds ∧ cs.flatten ++ p = a

namespace InOneBlock

variable {bs : List (List α)} {a : List α} {x y : α}

theorem append_left (h : InOneBlock bs a x y) (cs : List (List α)) :
    InOneBlock (cs ++ bs) (cs.flatten ++ a) x y := by
  obtain ⟨cs', p, q, ds, rfl, rfl⟩ := h
  exact ⟨cs ++ cs', p, q, ds, by simp, by simp⟩

theorem cons (h : InOneBlock bs a x y) (b : List α) : InOneBlock (b :: bs) (b ++ a) x y := by
  simpa using h.append_left [b]

end InOneBlock

/-! ## Cuts -/

/-- A block ends right behind the elements `a`. -/
def CutAt (bs : List (List α)) (a : List α) : Prop := ∃ cs ds, bs = cs ++ ds ∧ cs.flatten = a

namespace CutAt

variable {bs : List (List α)} {a b e : List α}

theorem nil (bs : List (List α)) : CutAt bs [] := ⟨[], bs, rfl, rfl⟩

theorem cons_iff : CutAt (b :: bs) (b ++ a) ↔ CutAt bs a := by
  constructor
  · rintro ⟨cs, ds, hbs, ha⟩
    cases cs with
    | nil =>
      have hnil : a = [] := (List.append_eq_nil_iff.1 ha.symm).2
      rw [hnil]
      exact nil bs
    | cons c cs =>
      obtain ⟨rfl, rfl⟩ := List.cons.inj hbs
      exact ⟨cs, ds, rfl, List.append_cancel_left ha⟩
  · rintro ⟨cs, ds, rfl, rfl⟩
    exact ⟨b :: cs, ds, rfl, rfl⟩

/-- There is no cut inside of a block. -/
theorem not_inside {u v : List α} (hu : u ≠ []) (hv : v ≠ []) : ¬ CutAt ((u ++ v) :: bs) u := by
  rintro ⟨cs, ds, hbs, ha⟩
  cases cs with
  | nil => exact hu ha.symm
  | cons c cs =>
    obtain ⟨rfl, -⟩ := List.cons.inj hbs
    have hlen := congrArg List.length ha
    have := List.length_pos_iff.2 hv
    simp only [List.flatten_cons, List.length_append] at hlen
    omega

/-- Elements put in front of the first block add no cut. -/
theorem extend_iff (ha : a ≠ []) : CutAt ((e ++ b) :: bs) (e ++ a) ↔ CutAt (b :: bs) a := by
  constructor
  · rintro ⟨cs, ds, hbs, hflat⟩
    cases cs with
    | nil => exact absurd (List.append_eq_nil_iff.1 hflat.symm).2 ha
    | cons c cs =>
      obtain ⟨rfl, rfl⟩ := List.cons.inj hbs
      rw [List.flatten_cons, List.append_assoc] at hflat
      exact ⟨b :: cs, ds, rfl, List.append_cancel_left hflat⟩
  · rintro ⟨cs, ds, hbs, rfl⟩
    cases cs with
    | nil => exact absurd rfl ha
    | cons c cs =>
      obtain ⟨rfl, rfl⟩ := List.cons.inj hbs
      exact ⟨(e ++ b) :: cs, ds, rfl, by simp⟩

theorem append_iff (cs : List (List α)) : CutAt (cs ++ bs) (cs.flatten ++ a) ↔ CutAt bs a := by
  induction cs with
  | nil => exact Iff.rfl
  | cons c cs ih => rw [List.cons_append, List.flatten_cons, List.append_assoc, cons_iff, ih]

/-- Blocks behind a place make no difference. -/
theorem append_right_iff {cs : List (List α)} (h : a.length < bs.flatten.length) :
    CutAt (bs ++ cs) a ↔ CutAt bs a := by
  constructor
  · rintro ⟨xs, ds, heq, rfl⟩
    rcases List.append_eq_append_iff.1 heq with ⟨ys, rfl, -⟩ | ⟨ys, rfl, -⟩
    · simp only [List.flatten_append, List.length_append] at h
      omega
    · exact ⟨xs, ys, rfl, rfl⟩
  · rintro ⟨xs, ds, rfl, rfl⟩
    exact ⟨xs, ds ++ cs, by simp, rfl⟩

end CutAt

theorem flatMap_eq_self {f : α → List α} {xs : List α} (h : ∀ x ∈ xs, f x = [x]) :
    xs.flatMap f = xs := by
  induction xs with
  | nil => rfl
  | cons x xs ih =>
    rw [List.flatMap_cons, h x List.mem_cons_self, ih fun y hy => h y (List.mem_cons_of_mem _ hy)]
    rfl

theorem length_le_flatMap {f : α → List β} {xs : List α} (hne : ∀ x ∈ xs, f x ≠ []) :
    xs.length ≤ (xs.flatMap f).length := by
  induction xs with
  | nil => exact Nat.zero_le _
  | cons x xs ih =>
    have hx := List.length_pos_iff.2 (hne x List.mem_cons_self)
    have := ih fun y hy => hne y (List.mem_cons_of_mem _ hy)
    simp only [List.flatMap_cons, List.length_append, List.length_cons]
    omega

/-- If every element contributes at least one block, then as many blocks as elements means
    one block each. -/
theorem flatMap_eq_map_iff {f : α → List β} {g : α → β} {xs : List α}
    (hne : ∀ x ∈ xs, f x ≠ []) : xs.flatMap f = xs.map g ↔ ∀ x ∈ xs, f x = [g x] := by
  constructor
  · induction xs with
    | nil => intro _ x hx; cases hx
    | cons x xs ih =>
      intro h
      have hxs : ∀ y ∈ xs, f y ≠ [] := fun y hy => hne y (List.mem_cons_of_mem _ hy)
      obtain ⟨a, l, hal⟩ := List.exists_cons_of_ne_nil (hne x List.mem_cons_self)
      rw [List.flatMap_cons, List.map_cons, hal, List.cons_append] at h
      obtain ⟨ha, hrest⟩ := List.cons.inj h
      -- no room for a second block of the first element
      have hl : l = [] := by
        have := congrArg List.length hrest
        have := length_le_flatMap hxs
        simp only [List.length_append, List.length_map] at *
        exact List.length_eq_zero_iff.1 (by omega)
      subst hl
      intro y hy
      rcases List.mem_cons.1 hy with rfl | hy
      · rw [hal, ha]
      · exact ih hxs hrest y hy
  · intro h
    induction xs with
    | nil => rfl
    | cons x xs ih =>
      rw [List.flatMap_cons, h x List.mem_cons_self,
        ih (fun y hy => hne y (List.mem_cons_of_mem _ hy))
          fun y hy => h y (List.mem_cons_of_mem _ hy)]
      rfl

end Runs

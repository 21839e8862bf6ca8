import RefactorCpp.Refactoring.Main

/-!
# The argument of a refactoring

A `-rename-function` value is read into a `RenameFunction`, and many values mean the same.

* `Trimmed`, `Canonical` — what is true of every refactoring that was read.
* `fromArgument_unqualified_iff` — when the `::` in front of the old name may be left out.
* `fromArgument_normalForm` — **a refactoring that was read can be written down again**: its names
  with a comma between them mean the same, to the constructor and to the whole program.
-/

set_option autoImplicit false

namespace RefactorCpp

open Fields Runs

/-- An argument as a list returns it. -/
structure Trimmed (arg : Str) : Prop where
  ne_nil : arg ≠ []
  no_comma : 0x2C ∉ arg
  head : ∀ c ∈ arg.head?, isBlank c = false
  last : ∀ c ∈ arg.getLast?, isBlank c = false

/-- The name with `::` in front, as the constructor makes it. -/
def qualified (definition : Str) : Str :=
  if (bytes "::").isPrefixOf definition then definition else bytes "::" ++ definition

/-- A refactoring whose old name is qualified and whose names are trimmed. -/
structure Canonical (refactoring : RenameFunction) : Prop where
  qualified : (bytes "::").isPrefixOf refactoring.oldName = true
  oldName : Trimmed refactoring.oldName
  newName : Trimmed refactoring.newName
  safe : refactoring.allowUnsafe = false

/-- The value that names a refactoring. -/
def RenameFunction.argument (refactoring : RenameFunction) : Str :=
  refactoring.oldName ++ 0x2C :: refactoring.newName

/-! ## What is read -/

theorem comma_not_mem_of_mem_pieces {s p : Str} (h : p ∈ pieces 0x2C s) : 0x2C ∉ p := by
  induction hn : s.length using Nat.strongRecOn generalizing s with
  | _ n ih =>
    rcases first_separator 0x2C s with hno | ⟨a, r, rfl, ha⟩
    · by_cases hs : s = []
      · rw [hs, pieces_nil] at h
        cases h
      · rw [pieces_of_not_mem hno hs, List.mem_singleton] at h
        rwa [h]
    · rw [pieces_append_cons ha] at h
      rcases List.mem_cons.1 h with rfl | h
      · exact ha
      · exact ih r.length (by simp at hn; omega) h rfl

theorem trim_trimmed {p : Str} (hcomma : 0x2C ∉ p) (hne : trim p ≠ []) : Trimmed (trim p) := by
  have hpre : trim p <+: p.dropWhile isBlank := List.rdropWhile_prefix _ _
  refine ⟨hne, fun h => hcomma ?_, fun c hc => ?_, fun c hc => ?_⟩
  · exact (List.dropWhile_sublist _).subset (hpre.subset h)
  · -- the first character is that of the rest behind the blanks
    have hstart := startsIn_dropWhile isBlank p
    obtain ⟨t, ht⟩ := hpre
    obtain ⟨x, r, hx⟩ := List.exists_cons_of_ne_nil hne
    rw [hx, List.head?_cons, Option.mem_some_iff] at hc
    rw [← ht, hx, List.cons_append, startsIn_cons] at hstart
    rwa [← hc]
  · have hlast := List.rdropWhile_last_not isBlank (p.dropWhile isBlank) hne
    rw [List.getLast?_eq_some_getLast hne, Option.mem_some_iff] at hc
    rw [← hc]
    exact eq_false_of_ne_true hlast

theorem isPrefixOf_qualified (definition : Str) :
    (bytes "::").isPrefixOf (qualified definition) = true := by
  unfold qualified
  split
  · assumption
  · rw [List.isPrefixOf_iff_prefix]
    exact List.prefix_append _ _

theorem qualified_eq_self {definition : Str} (h : (bytes "::").isPrefixOf definition = true) :
    qualified definition = definition := if_pos h

theorem Trimmed.qualified {definition : Str} (h : Trimmed definition) :
    Trimmed (qualified definition) := by
  unfold RefactorCpp.qualified
  split
  · exact h
  · refine ⟨by simp [bytes], fun hmem => ?_, fun c hc => ?_, fun c hc => ?_⟩
    · rcases List.mem_append.1 hmem with hmem | hmem
      · revert hmem
        decide
      · exact h.no_comma hmem
    · have hcolon : (bytes "::" ++ definition).head? = some 0x3A := rfl
      rw [hcolon, Option.mem_some_iff] at hc
      rw [← hc]
      rfl
    · rw [List.getLast?_append_of_ne_nil _ h.ne_nil] at hc
      exact h.last c hc

/-- **What a value makes**, in terms of its pieces. -/
theorem RenameFunction.fromArgument_ok_iff {name s : Str} {r : RenameFunction} :
    fromArgument name s = .ok r ↔
      ∃ definition newName, pieces 0x2C s = [definition, newName] ∧ trim definition ≠ [] ∧
        trim newName ≠ [] ∧ r = ⟨name, qualified (trim definition), trim newName, false⟩ := by
  unfold fromArgument
  rw [fromString_eq]
  constructor
  · intro h
    cases hblank : noBlank (pieces 0x2C s) with
    | false =>
      rw [hblank, if_neg (by simp)] at h
      cases h
    | true =>
      rw [hblank, if_pos rfl] at h
      simp only [new] at h
      split at h
      · rename_i d n hargs
        cases h
        obtain ⟨definition, _, hp, rfl, htail⟩ := List.map_eq_cons_iff.1 hargs
        obtain ⟨newName, rfl, rfl⟩ := List.map_eq_singleton_iff.1 htail
        rw [hp] at hblank
        have hne := noBlank_iff.1 hblank
        exact ⟨definition, newName, hp, hne _ (by simp), hne _ (by simp), rfl⟩
      · cases h
  · rintro ⟨definition, newName, hp, hd, hn, rfl⟩
    rw [hp, if_pos (noBlank_iff.2 (by simp [hd, hn]))]
    rfl

theorem Trimmed.trim_eq {arg : Str} (h : Trimmed arg) : trim arg = arg := by
  have hpad : trim ([] ++ arg ++ []) = arg :=
    trim_padded (by simp) (by simp) h.ne_nil h.head h.last
  rwa [List.nil_append, List.append_nil] at hpad

/-- A plain list of two trimmed arguments. -/
theorem RenameFunction.fromArgument_pair (name : Str) {definition newName : Str}
    (hd : Trimmed definition) (hn : Trimmed newName) :
    fromArgument name (definition ++ 0x2C :: newName) =
      .ok ⟨name, qualified definition, newName, false⟩ := by
  have hpieces : pieces 0x2C (definition ++ 0x2C :: newName) = [definition, newName] := by
    rw [pieces_append_cons hd.no_comma, pieces_of_not_mem hn.no_comma hn.ne_nil]
  refine fromArgument_ok_iff.2 ⟨definition, newName, hpieces, ?_, ?_, ?_⟩
  · rw [hd.trim_eq]
    exact hd.ne_nil
  · rw [hn.trim_eq]
    exact hn.ne_nil
  · rw [hd.trim_eq, hn.trim_eq]

theorem RenameFunction.canonical_of_fromArgument {name s : Str} {r : RenameFunction}
    (h : fromArgument name s = .ok r) : r.name = name ∧ Canonical r := by
  obtain ⟨definition, newName, hp, hd, hn, rfl⟩ := fromArgument_ok_iff.1 h
  have hcomma : ∀ p ∈ [definition, newName], 0x2C ∉ p := fun p hmem =>
    comma_not_mem_of_mem_pieces (hp ▸ hmem)
  refine ⟨rfl, isPrefixOf_qualified _, ?_, ?_, rfl⟩
  · exact (trim_trimmed (hcomma definition (by simp)) hd).qualified
  · exact trim_trimmed (hcomma newName (by simp)) hn

theorem RenameFunction.fromArgument_argument {r : RenameFunction} (h : Canonical r) :
    fromArgument r.name r.argument = .ok r := by
  rw [argument, fromArgument_pair r.name h.oldName h.newName, qualified_eq_self h.qualified,
    ← h.safe]

theorem length_trim_le (p : Str) : (trim p).length ≤ p.length :=
  (List.rdropWhile_prefix _ _).length_le.trans (List.dropWhile_sublist _).length_le

/-- **When the `::` in front may be left out**: if the rest is a trimmed name that does not begin
    with `::` itself. -/
theorem RenameFunction.fromArgument_unqualified_iff {r : RenameFunction} (h : Canonical r)
    {definition : Str} (hold : r.oldName = bytes "::" ++ definition) :
    fromArgument r.name (definition ++ 0x2C :: r.newName) = .ok r ↔
      Trimmed definition ∧ (bytes "::").isPrefixOf definition = false := by
  have hcomma : 0x2C ∉ definition := fun hmem =>
    h.oldName.no_comma (hold ▸ List.mem_append_right _ hmem)
  constructor
  · intro hread
    obtain ⟨d, n, hp, hd, -, hr⟩ := fromArgument_ok_iff.1 hread
    rw [pieces_append_cons hcomma] at hp
    obtain rfl := (List.cons.inj hp).1
    have hqual : qualified (trim definition) = bytes "::" ++ definition :=
      (congrArg RenameFunction.oldName hr).symm.trans hold
    by_cases hpre : (bytes "::").isPrefixOf (trim definition) = true
    · -- the trimmed rest would be longer than the rest
      rw [qualified_eq_self hpre] at hqual
      have hlen := length_trim_le definition
      rw [hqual, List.length_append] at hlen
      have h2 : (bytes "::").length = 2 := rfl
      omega
    · rw [RefactorCpp.qualified, if_neg hpre] at hqual
      have htrim := List.append_cancel_left hqual
      rw [htrim] at hpre
      exact ⟨htrim ▸ trim_trimmed hcomma hd, eq_false_of_ne_true hpre⟩
  · rintro ⟨hd, hpre⟩
    rw [fromArgument_pair r.name hd h.newName, RefactorCpp.qualified, if_neg (by simp [hpre]),
      ← hold, ← h.safe]

/-- **A refactoring that was read can be written down again.**  What any value makes is canonical
    and is read back from its own names with a comma between them; the whole program behaves the
    same on this value.  The `::` in front of the old name may be left out exactly if the rest is
    a trimmed name that does not begin with `::` itself. -/
theorem RenameFunction.fromArgument_normalForm (name : Str) :
    (∀ s r, fromArgument name s = .ok r →
      Canonical r ∧ fromArgument name r.argument = .ok r) ∧
    (∀ r, Canonical r → r.name = name → ∃ s, fromArgument name s = .ok r) ∧
    (∀ frontend options r, Accepted options r →
      main frontend { options with renameValue := r.argument } = main frontend options) ∧
    ∀ r definition, Canonical r → r.name = name → r.oldName = bytes "::" ++ definition →
      (fromArgument name (definition ++ 0x2C :: r.newName) = .ok r ↔
        Trimmed definition ∧ (bytes "::").isPrefixOf definition = false) := by
  have hread : ∀ n s r, fromArgument n s = .ok r → fromArgument n r.argument = .ok r := by
    intro n s r h
    obtain ⟨rfl, hcanon⟩ := canonical_of_fromArgument h
    exact fromArgument_argument hcanon
  refine ⟨fun s r h => ⟨(canonical_of_fromArgument h).2, hread name s r h⟩, ?_, ?_, ?_⟩
  · rintro r hcanon rfl
    exact ⟨_, fromArgument_argument hcanon⟩
  · intro frontend options r hacc
    have hacc' : Accepted { options with renameValue := r.argument } r :=
      ⟨hacc.1, hread _ _ r hacc.2⟩
    rw [main_of_accepted frontend hacc, main_of_accepted frontend hacc']
    rfl
  · rintro r definition hcanon rfl hold
    exact fromArgument_unqualified_iff hcanon hold

end RefactorCpp

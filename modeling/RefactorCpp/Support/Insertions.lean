import Mathlib.Data.Finset.Card
import Mathlib.Data.List.AList

/-!
# Insertions into a finite map, one after the other

Over arbitrary keys with decidable equality and arbitrary values.

* `lookup_insert_eq` — what is found after one insertion.
* `lookup_insertAll_last` — **the last value inserted under a key is the one that is found**.
* `exists_last_insertion` — a key that is inserted is inserted a last time.
* `lookup_insertAll_of_not_mem` — keys that are not inserted keep their value.
* `mem_insertAll` — the keys are the old ones and the inserted ones.
* `length_keys_insertAll` — an empty map grows to one key for each different inserted key.
-/

set_option autoImplicit false

namespace Insertions

variable {κ β : Type} [DecidableEq κ]

theorem lookup_insert_eq (m : AList fun _ : κ => β) (k : κ) (v : β) (k' : κ) :
    (m.insert k v).lookup k' = if k' = k then some v else m.lookup k' := by
  by_cases h : k' = k
  · subst h
    rw [if_pos rfl, AList.lookup_insert]
  · rw [if_neg h, AList.lookup_insert_ne h]

/-- Insertions, one after the other. -/
def insertAll (m : AList fun _ : κ => β) (kvs : List (κ × β)) : AList fun _ : κ => β :=
  kvs.foldl (fun m kv => m.insert kv.1 kv.2) m

@[simp] theorem insertAll_nil (m : AList fun _ : κ => β) : insertAll m [] = m := rfl

@[simp] theorem insertAll_cons (m : AList fun _ : κ => β) (kv : κ × β) (kvs : List (κ × β)) :
    insertAll m (kv :: kvs) = insertAll (m.insert kv.1 kv.2) kvs := rfl

theorem insertAll_append (m : AList fun _ : κ => β) (kvs kvs' : List (κ × β)) :
    insertAll m (kvs ++ kvs') = insertAll (insertAll m kvs) kvs' :=
  List.foldl_append

theorem mem_insertAll {m : AList fun _ : κ => β} {kvs : List (κ × β)} {k : κ} :
    k ∈ insertAll m kvs ↔ k ∈ kvs.map Prod.fst ∨ k ∈ m := by
  induction kvs generalizing m with
  | nil => simp
  | cons kv kvs ih =>
    rw [insertAll_cons, ih, AList.mem_insert, List.map_cons, List.mem_cons]
    tauto

theorem lookup_insertAll_of_not_mem {m : AList fun _ : κ => β} {kvs : List (κ × β)} {k : κ}
    (h : k ∉ kvs.map Prod.fst) : (insertAll m kvs).lookup k = m.lookup k := by
  induction kvs generalizing m with
  | nil => rfl
  | cons kv kvs ih =>
    rw [List.map_cons, List.mem_cons, not_or] at h
    rw [insertAll_cons, ih h.2, lookup_insert_eq, if_neg h.1]

/-- **The last insertion counts.** -/
theorem lookup_insertAll_last (m : AList fun _ : κ => β) (kvs : List (κ × β)) (k : κ) (v : β)
    {kvs' : List (κ × β)} (h : k ∉ kvs'.map Prod.fst) :
    (insertAll m (kvs ++ (k, v) :: kvs')).lookup k = some v := by
  rw [insertAll_append, insertAll_cons, lookup_insertAll_of_not_mem h, lookup_insert_eq, if_pos rfl]

/-- Among the insertions of a key there is a last one. -/
theorem exists_last_insertion {kvs : List (κ × β)} {k : κ} (h : k ∈ kvs.map Prod.fst) :
    ∃ before v after, kvs = before ++ (k, v) :: after ∧ k ∉ after.map Prod.fst := by
  induction kvs with
  | nil => cases h
  | cons kv kvs ih =>
    by_cases hlater : k ∈ kvs.map Prod.fst
    · obtain ⟨before, v, after, rfl, hafter⟩ := ih hlater
      exact ⟨kv :: before, v, after, rfl, hafter⟩
    · rw [List.map_cons, List.mem_cons, or_iff_left hlater] at h
      exact ⟨[], kv.2, kvs, by rw [h]; rfl, hlater⟩

/-- The keys differ from each other, so they are counted by the set of inserted keys. -/
theorem length_keys_insertAll (kvs : List (κ × β)) :
    (insertAll ∅ kvs).keys.length = (kvs.map Prod.fst).toFinset.card := by
  rw [← List.toFinset_card_of_nodup (AList.keys_nodup _)]
  congr 1
  ext k
  rw [List.mem_toFinset, List.mem_toFinset, ← AList.mem_keys, mem_insertAll]
  simp

end Insertions

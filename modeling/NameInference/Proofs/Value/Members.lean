import Mathlib.Data.List.Basic
import NameInference.Value.Set

/-!
# Members of value sets

Sets of values are ascending lists. What a set is made from decides its members, and for the
operations that only add members this is so for any lists.
-/

namespace NameInference.ValueSet

open List

variable {id x : ValueId} {s t : ValueSet} {sets : List ValueSet}

@[simp] theorem mem_empty :
    x ∈ (∅ : ValueSet).ids ↔ False := by simp [EmptyCollection.emptyCollection]

@[simp] theorem mem_insert : x ∈ (s.insert id).ids ↔ x = id ∨ x ∈ s.ids := by
  have hmem : x ∈ s.ids ↔ x ∈ s.ids.take (lowerBound id s.ids) ∨
      x ∈ s.ids.drop (lowerBound id s.ids) := by
    rw [← mem_append, take_append_drop]
  simp only [insert, splitAt_eq]
  split
  · next hhead =>
    have hid : id ∈ s.ids := mem_of_mem_drop (mem_of_mem_head? (eq_of_beq hhead))
    exact ⟨.inr, fun h => h.elim (fun h => h ▸ hid) fun h => h⟩
  · rw [mem_append, mem_cons, hmem]
    tauto

theorem mem_mergeEither (s t : List ValueId) : x ∈ mergeEither s t ↔ x ∈ s ∨ x ∈ t := by
  fun_induction mergeEither s t with
  | case1 t => simp
  | case2 s => simp
  | case3 a s b t _ ih =>
    rw [mem_cons, ih, ← or_assoc, ← mem_cons]
  | case4 a s b t _ _ ih =>
    rw [mem_cons, ih, mem_cons, mem_cons]
    tauto
  | case5 a s b t hab hba ih =>
    obtain rfl : a = b := Nat.le_antisymm (Nat.not_lt.mp hba) (Nat.not_lt.mp hab)
    rw [mem_cons, ih, mem_cons, mem_cons]
    tauto

@[simp] theorem mem_union : x ∈ (s.union t).ids ↔ x ∈ s.ids ∨ x ∈ t.ids :=
  mem_mergeEither s.ids t.ids

/-- Nothing is lost by the ways in which an empty set is joined. -/
theorem join_eq_union (s t : ValueSet) : s.join t = s.union t := by
  unfold join
  split
  · next hempty =>
    obtain ⟨ids⟩ := s
    rw [union, isEmpty_iff.mp hempty]
    cases ids <;> simp [mergeEither]
  · split
    · next hempty => rw [union, isEmpty_iff.mp hempty, mergeEither]
    · rfl

@[simp] theorem empty_join (s : ValueSet) : (∅ : ValueSet).join s = s := by
  rw [join_eq_union, union]
  simp [EmptyCollection.emptyCollection, mergeEither]

@[simp] theorem mem_join :
    x ∈ (s.join t).ids ↔ x ∈ s.ids ∨ x ∈ t.ids := by rw [join_eq_union, mem_union]

theorem mem_foldl_join : x ∈ (sets.foldl join s).ids ↔ x ∈ s.ids ∨ ∃ t ∈ sets, x ∈ t.ids := by
  induction sets generalizing s with
  | nil => simp
  | cons t sets ih =>
    rw [foldl_cons, ih, mem_join]
    simp [or_assoc]

theorem mem_ofSets : x ∈ (ofSets sets).ids ↔ ∃ s ∈ sets, x ∈ s.ids := by
  rw [ofSets, mem_foldl_join, mem_empty, false_or]

theorem bind_eq_ofSets (s : ValueSet) (f : ValueId → ValueSet) :
    s.bind f = ofSets (s.ids.map f) := by
  rw [bind, ofSets, foldl_map]

theorem mem_unique (ids : List ValueId) : x ∈ unique ids ↔ x ∈ ids := by
  fun_induction unique ids with
  | case1 => rfl
  | case2 id => rfl
  | case3 id next rest heq ih =>
    rw [ih, eq_of_beq heq]
    simp
  | case4 id next rest _ ih => rw [mem_cons, ih, ← mem_cons]

theorem mem_ofList {ids : List ValueId} : x ∈ (ofList ids).ids ↔ x ∈ ids := by
  rw [ofList, mem_unique, mem_mergeSort]

end NameInference.ValueSet

import Mathlib.Data.List.Nodup
import NameInference.Proofs.Span.Nesting

/-!
# The places of parts

The form of a place is the form of its node with the places of the parts in their order, so the
parts of a place are its children, and the number of a part leads back to it. Places below a root
differ in their keys.
-/

namespace NameInference

open List

namespace Form

variable {ν μ : Type} (f : Nat → ν → μ)

@[simp] theorem numberList_nil (k : Nat) : numberList f k [] = [] := rfl

@[simp] theorem numberList_cons (k : Nat) (x : ν) (xs : List ν) :
    numberList f k (x :: xs) = f k x :: numberList f (k + 1) xs := by
  simp [numberList, mapIdx_cons, Nat.add_comm, Nat.add_left_comm]

theorem numberList_append (k : Nat) (xs ys : List ν) :
    numberList f k (xs ++ ys) = numberList f k xs ++ numberList f (k + xs.length) ys := by
  simp [numberList, mapIdx_append, Nat.add_left_comm, Nat.add_comm]

@[simp] theorem length_numberList (k : Nat) (xs : List ν) :
    (numberList f k xs).length = xs.length := by
  simp [numberList]

theorem numberList_eq_mapIdx (xs : List ν) : numberList f 0 xs = xs.mapIdx f := by
  simp [numberList]

variable {f} in
theorem mem_numberList {k : Nat} {xs : List ν} {y : μ} (h : y ∈ numberList f k xs) :
    ∃ i x, xs[i]? = some x ∧ y = f (k + i) x := by
  obtain ⟨i, hi, rfl⟩ := mem_mapIdx.mp h
  exact ⟨i, xs[i], getElem?_eq_getElem hi, rfl⟩

theorem toList_numberOption (k : Nat) (x : Option ν) :
    (numberOption f k x).toList = numberList f k x.toList := by
  cases x <;> simp [numberOption]

theorem values_numberKeywords (k : Nat) (xs : List (Keyword ν)) :
    (numberKeywords f k xs).map (·.value) = numberList f k (xs.map (·.value)) := by
  ext i y
  simp [numberKeywords, numberList, Function.comp_def]

theorem operands_numberComparisons (k : Nat) (xs : List (Comparison ν)) :
    (numberComparisons f k xs).map (·.operand) = numberList f k (xs.map (·.operand)) := by
  ext i y
  simp [numberComparisons, numberList, Function.comp_def]

theorem parts_numberEntries (k : Nat) (es : List (Entry ν)) :
    (numberEntries f k es).flatMap Entry.parts = numberList f k (es.flatMap Entry.parts) := by
  induction es generalizing k with
  | nil => rfl
  | cons e es ih =>
    rw [numberEntries, flatMap_cons, flatMap_cons, ih, numberList_append]
    simp [Entry.parts, toList_numberOption, numberList_append]

theorem parts_numberClauses (k : Nat) (cs : List (Clause ν)) :
    (numberClauses f k cs).flatMap Clause.parts = numberList f k (cs.flatMap Clause.parts) := by
  induction cs generalizing k with
  | nil => rfl
  | cons c cs ih =>
    rw [numberClauses, flatMap_cons, flatMap_cons, ih, numberList_append]
    simp [Clause.parts]

/-- Numbering a form numbers its parts. -/
theorem parts_number (form : Form ν) : (form.number f).parts = form.parts.mapIdx f := by
  rw [← numberList_eq_mapIdx]
  cases form <;>
    simp [number, parts, numberList_append, toList_numberOption, values_numberKeywords,
      operands_numberComparisons, parts_numberEntries, parts_numberClauses, Nat.add_assoc,
      Nat.add_comm, Nat.add_left_comm]

end Form

namespace Place

variable {p q : Place}

/-- The parts of a place are its children. -/
theorem parts_form (p : Place) : p.form.parts = p.children := Form.parts_number p.enter p.node.form

/-- The number of a child leads back to it. -/
theorem exists_enter_of_mem_children (h : q ∈ p.children) :
    ∃ i n, p.node.children[i]? = some n ∧ p.children[i]? = some q ∧ q = p.enter i n := by
  obtain ⟨i, hi, rfl⟩ := mem_mapIdx.mp h
  exact ⟨i, p.node.children[i], getElem?_eq_getElem hi, by simp [children, hi], rfl⟩

theorem walk_eq (p : Place) : p.walk = p :: p.children.flatMap walk := by
  rw [walk, flatMap_subtype (g := walk) fun _ _ => rfl, unattach_attach]

/-- The way to a place goes through all that it is below. -/
theorem suffix_of_mem_walk (h : q ∈ p.walk) : p.path <:+ q.path := by
  refine walk_induction (P := fun q => p.path <:+ q.path) (fun a ha child hchild => ?_)
    (suffix_refl _) q h
  obtain ⟨i, n, -, -, rfl⟩ := exists_enter_of_mem_children hchild
  exact ha.trans (suffix_cons i a.path)

/-- The way to a place below a child leads through the number of the child. -/
theorem cons_suffix_of_mem_walk {i : Nat} (hi : i < p.children.length)
    (hq : q ∈ p.children[i].walk) :
    i :: p.path <:+ q.path := by
  simpa [children, enter, path] using suffix_of_mem_walk hq

/-- No way leads through two children of one place. -/
theorem eq_of_cons_suffix {i j : Nat} {path way : List Nat} (hi : i :: path <:+ way)
    (hj : j :: path <:+ way) :
    i = j :=
  (List.cons.inj ((suffix_of_suffix_length_le hi hj (by simp)).eq_of_length (by simp))).1

/-- No two places of a tree have the same key. -/
theorem nodup_walk (p : Place) : (p.walk.map key).Nodup := by
  induction p using walk.induct with
  | case1 p ih =>
    rw [walk_eq, map_cons, map_flatMap, nodup_cons, nodup_flatMap]
    refine ⟨?_, ih, ?_⟩
    · intro hmem
      obtain ⟨child, hchild, hmem⟩ := mem_flatMap.mp hmem
      obtain ⟨q, hq, hkey⟩ := mem_map.mp hmem
      obtain ⟨i, n, -, -, rfl⟩ := exists_enter_of_mem_children hchild
      have hle := (suffix_of_mem_walk hq).length_le
      have hpath : q.path = p.path := congrArg PlaceKey.path hkey
      rw [hpath] at hle
      simp only [path, enter, length_map, length_cons] at hle
      omega
    · rw [pairwise_iff_getElem]
      intro i j hi hj hij k hk hk'
      obtain ⟨q, hq, rfl⟩ := mem_map.mp hk
      obtain ⟨q', hq', hkey⟩ := mem_map.mp hk'
      have hpath : q'.path = q.path := congrArg PlaceKey.path hkey
      have hsame := eq_of_cons_suffix (cons_suffix_of_mem_walk hi hq)
        (hpath ▸ cons_suffix_of_mem_walk hj hq')
      omega

end Place

end NameInference

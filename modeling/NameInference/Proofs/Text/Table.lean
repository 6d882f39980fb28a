import NameInference.Text.Table

/-!
# Values in tables

A name has the value that was set last, and setting a name leaves the others. So in the table of a
list of pairs a name has the value of the last pair with it.
-/

namespace NameInference

open List

namespace Table

variable {α : Type}

theorem get?_set_self (name : Text) (value : α) (table : Table α) :
    (set name value table).get? name = some value := by
  fun_induction set name value table with
  | case1 => simp [get?]
  | case2 => simp [get?]
  | case3 => simp [get?]
  | case4 key _ rest hne _ ih =>
    unfold get? at ih ⊢
    rw [lookup_cons, ih]
    simp [Bool.eq_false_iff.mpr hne]

theorem get?_set_of_ne {name other : Text} (h : name ≠ other) (value : α) (table : Table α) :
    (set other value table).get? name = table.get? name := by
  have hne : (name == other) = false := beq_false_of_ne h
  fun_induction set other value table with
  | case1 => simp [get?, lookup_cons, hne]
  | case2 key _ rest heq =>
    obtain rfl := eq_of_beq heq
    simp [get?, lookup_cons, hne]
  | case3 => simp [get?, lookup_cons, hne]
  | case4 key v rest _ _ ih =>
    unfold get? at ih ⊢
    rw [lookup_cons, lookup_cons, ih]

/-- A table has only the names it was made of. -/
theorem get?_ofList_eq_none {name : Text} {pairs : List (Text × α)}
    (h : ∀ pair ∈ pairs, name ≠ pair.1) :
    (ofList pairs).get? name = none := by
  suffices hfold : ∀ table : Table α,
      (pairs.foldl (fun table pair => set pair.1 pair.2 table) table).get? name =
        table.get? name from hfold []
  induction pairs with
  | nil => exact fun _ => rfl
  | cons pair pairs ih =>
    intro table
    rw [foldl_cons, ih fun other hother => h other (mem_cons_of_mem _ hother)]
    exact get?_set_of_ne (h pair mem_cons_self) _ _

/-- A name has the value of one of the pairs if those behind it do not give it another one. -/
theorem get?_ofList_eq_some {name : Text} {value : α} (front : List (Text × α))
    {back : List (Text × α)} (h : ∀ pair ∈ back, pair.1 = name → pair.2 = value) :
    (ofList (front ++ (name, value) :: back)).get? name = some value := by
  suffices hfold : ∀ table : Table α, table.get? name = some value →
      (back.foldl (fun table pair => set pair.1 pair.2 table) table).get? name = some value by
    rw [ofList, foldl_append, foldl_cons]
    exact hfold _ (get?_set_self name value _)
  induction back with
  | nil => exact fun _ htable => htable
  | cons pair back ih =>
    intro table htable
    rw [foldl_cons]
    refine ih (fun other hother => h other (mem_cons_of_mem _ hother)) _ ?_
    by_cases hname : pair.1 = name
    · rw [hname, h pair mem_cons_self hname]
      exact get?_set_self name value table
    · rw [get?_set_of_ne (Ne.symm hname), htable]

end Table

end NameInference

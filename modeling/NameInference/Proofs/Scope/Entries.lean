import NameInference.Scope.Index

/-!
# Entries of the index

The index of a module lists what the entries of the module add, in the order in which they are
found.
-/

namespace NameInference

namespace ScopeIndex

/-- What every entry adds to a list is listed in the order in which the entries are found. -/
theorem eq_filterMap_of_add {α : Type} (read : ScopeIndex → List α) {of? : IndexEntry → Option α}
    (hempty : read {} = [])
    (hadd : ∀ index entry, read (index.add entry) = read index ++ (of? entry).toList)
    (root : Place) : read (ofModule root) = root.moduleEntries.filterMap of? := by
  have hfold (entries : List IndexEntry) (index : ScopeIndex) :
      read (entries.foldl add index) = read index ++ entries.filterMap of? := by
    induction entries generalizing index with
    | nil => simp
    | cons entry entries ih =>
      rw [List.foldl_cons, ih, hadd, List.append_assoc, List.filterMap_cons]
      cases of? entry <;> rfl
  rw [ofModule, hfold, hempty, List.nil_append]

end ScopeIndex

/-- The binding that an entry adds for a name in a scope. -/
def IndexEntry.binding? (scope : Place) (name : Text) : IndexEntry → Option Binding
  | .binding b => if ((ScopeIndex.home b).key, b.id) = (scope.key, name) then some b else none
  | _ => none

/-- The bindings of a name in a scope are listed in the order in which they are found. -/
theorem ScopeIndex.lookup_ofModule (root scope : Place) (name : Text) :
    (ofModule root).lookup scope name = root.moduleEntries.filterMap
      (IndexEntry.binding? scope name) := by
  refine eq_filterMap_of_add (·.lookup scope name) (by simp [lookup]) (fun index entry => ?_) root
  cases entry with
  | selfAttribute | starImport => simp [add, lookup, IndexEntry.binding?]
  | binding b =>
    simp only [add, lookup, append, IndexEntry.binding?, Std.HashMap.getD_insert, beq_iff_eq]
    split
    · next hkey =>
      rw [hkey]
      rfl
    · simp

/-- The statement of a star import in a scope. -/
def IndexEntry.star? (scope : Place) : IndexEntry → Option Place
  | .starImport owner stmt => if owner.key = scope.key then some stmt else none
  | _ => none

/-- The star imports of a scope are listed in the order in which they are found. -/
theorem ScopeIndex.starsOf_ofModule (root scope : Place) :
    (ofModule root).starsOf scope = root.moduleEntries.filterMap (IndexEntry.star? scope) := by
  refine eq_filterMap_of_add (·.starsOf scope) (by simp [starsOf]) (fun index entry => ?_) root
  cases entry with
  | binding | selfAttribute => simp [add, starsOf, IndexEntry.star?]
  | starImport owner stmt =>
    simp only [add, starsOf, append, IndexEntry.star?, Std.HashMap.getD_insert, beq_iff_eq]
    split
    · next hkey =>
      rw [hkey]
      rfl
    · simp

end NameInference

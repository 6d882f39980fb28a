import NameInference.Proofs.Flow.Around

/-!
# The table of redirected names

Redirections may be collected in a table, one function after the other. A `nonlocal` then looks up
what the function around has entered, so each function has to come behind the one around it, as it
does in a walk through the tree. The table that is filled in such an order holds what
`Place.redirect?` finds.
-/

namespace NameInference

open List

namespace Place

variable {p q root : Place}

/-- No place of a walk comes behind one that is below it. -/
theorem pairwise_walk (p : Place) : p.walk.Pairwise fun q a => a ∉ q.ancestors := by
  induction p using walk.induct with
  | case1 p ih =>
    rw [walk_eq, pairwise_cons, pairwise_flatMap]
    refine ⟨?_, ih, ?_⟩
    · intro a ha hmem
      obtain ⟨child, hchild, ha⟩ := mem_flatMap.mp ha
      obtain ⟨i, n, -, -, rfl⟩ := exists_enter_of_mem_children hchild
      have hle := (suffix_of_mem_walk ha).length_le
      have hlt := depth_lt_of_mem_ancestors hmem
      simp only [path, enter, depth, length_map, length_cons] at hle hlt
      omega
    · rw [pairwise_iff_getElem]
      intro i j hi hj hij q hq a ha hmem
      obtain ⟨-, inner, k, habove⟩ := mem_alongWay.mp hmem
      -- The way to the one place is part of the way to the other: both begin with the same child.
      have hpart : a.path <:+ q.path := ⟨inner.map (·.1) ++ [k], by simp [path, habove]⟩
      have hsame := eq_of_cons_suffix (cons_suffix_of_mem_walk hi hq)
        ((cons_suffix_of_mem_walk hj ha).trans hpart)
      omega

theorem mem_ancestors_of_outerFunction? (h : p.outerFunction? = some q) : q ∈ p.ancestors := by
  replace h := (Option.filter_eq_some_iff.mp h).1
  fun_induction scopeBeyond? isClass p with
  | case1 => cases h
  | case2 p s hs _ ih => exact ancestors_trans (mem_alongWay_of_governorAlong hs) (ih h)
  | case3 p s hs _ =>
    cases h
    exact mem_alongWay_of_governorAlong hs

/-- The function around a place comes before it in a walk. -/
theorem mem_before_of_outerFunction? {before after : List Place} (hroot : root.above = [])
    (hwalk : root.walk = before ++ p :: after) (h : p.outerFunction? = some q) : q ∈ before := by
  have hp : p ∈ root.walk := by simp [hwalk]
  have hq := mem_walk_of_outerFunction? hroot hp h
  have hpairwise := pairwise_walk root
  rw [hwalk, pairwise_append, pairwise_cons] at hpairwise
  rw [hwalk, mem_append, mem_cons] at hq
  obtain hq | rfl | hq := hq
  · exact hq
  · exact absurd (depth_outerFunction? h) (Nat.lt_irrefl _)
  · exact absurd (mem_ancestors_of_outerFunction? h) (hpairwise.2.1.1 q hq)

theorem key_ne_of_outerFunction? (h : p.outerFunction? = some q) : q.key ≠ p.key := by
  intro hkey
  have hlength := congrArg List.length (congrArg PlaceKey.path hkey)
  have hlt := depth_outerFunction? h
  simp only [key, path, length_map] at hlength
  simp only [depth] at hlt
  omega

/-- A declaration passes the name on to the module, or to where the function around passes it on to.
-/
theorem redirect?_eq (p : Place) (x : Text) :
    p.redirect? x = (p.declaredGlobal? x).bind fun isGlobal =>
    if isGlobal then some p.top else p.outerFunction?.map fun outer =>
        (outer.redirect? x).getD outer := by
  fun_cases redirect? p x with
  | case1 h => simp [h]
  | case2 h => simp [h]
  | case3 h houter => simp [h, houter]
  | case4 h outer houter => simp [h, houter]

end Place

/-- The scopes that names are passed on to, by function and name. -/
abbrev Redirections := Std.HashMap (PlaceKey × Text) Place

namespace Redirections

variable {table : Redirections} {p q : Place} {d : Bool × Text} {k : PlaceKey} {x : Text}

/-- Enters one declaration of the function `p`; of several for a name, the last one stays. -/
def enter (p : Place) (table : Redirections) (d : Bool × Text) : Redirections :=
  if d.1 then table.insert (p.key, d.2) p.top
  else
    match p.outerFunction? with
    | none => table
    | some outer => table.insert (p.key, d.2) (table.getD (outer.key, d.2) outer)

/-- Enters the declarations of the function `p`. -/
def collect (table : Redirections) (p : Place) : Redirections :=
  (p.functionBody.flatMap Node.declarations).foldl (enter p) table

/-- The table holds what the function `p` passes on. -/
def Holds (table : Redirections) (p : Place) : Prop := ∀ x, table[(p.key, x)]? = p.redirect? x

/-- Declarations of one place leave the entries of the others. -/
theorem getElem?_enter_of_ne (h : k ≠ p.key) : (enter p table d)[(k, x)]? = table[(k, x)]? := by
  have hne (y : Text) : ¬ (p.key, y) = (k, x) := fun heq => h (Prod.mk.inj heq).1.symm
  rw [enter]
  split
  · simp [Std.HashMap.getElem?_insert, hne]
  · split
    · rfl
    · simp [Std.HashMap.getElem?_insert, hne]

theorem getElem?_foldl_enter_of_ne (h : k ≠ p.key) (ds : List (Bool × Text)) :
    (ds.foldl (enter p) table)[(k, x)]? = table[(k, x)]? := by
  induction ds generalizing table with
  | nil => rfl
  | cons d ds ih => rw [foldl_cons, ih, getElem?_enter_of_ne h]

theorem getElem?_foldl_collect_of_notMem {places : List Place} (h : k ∉ places.map Place.key) :
    (places.foldl collect table)[(k, x)]? = table[(k, x)]? := by
  induction places generalizing table with
  | nil => rfl
  | cons p places ih =>
    rw [map_cons, mem_cons, not_or] at h
    rw [foldl_cons, ih h.2, collect, getElem?_foldl_enter_of_ne h.1]

/-- A function's own entries are right if the function around has entered its own. -/
theorem holds_collect (hnew : ∀ x : Text, table[(p.key, x)]? = none)
    (houter : ∀ outer, p.outerFunction? = some outer → table.Holds outer) :
    (table.collect p).Holds p := by
  intro x
  rw [Place.redirect?_eq, Place.declaredGlobal?, collect]
  generalize p.functionBody.flatMap Node.declarations = ds
  -- The induction goes from the last declaration back, since it is the last one that counts.
  induction ds using List.reverseRecOn with
  | nil => simpa using hnew x
  | append_singleton ds d ih =>
    obtain ⟨isGlobal, y⟩ := d
    rw [foldl_append, foldl_cons, foldl_nil, filter_append, enter]
    cases isGlobal with
    | true =>
      by_cases hname : y = x
      · simp [hname]
      · simpa [Std.HashMap.getElem?_insert, hname] using ih
    | false =>
      cases hfound : p.outerFunction? with
      | none => simpa [hfound] using ih
      | some outer =>
        have hentry : (ds.foldl (enter p) table)[(outer.key, x)]? = outer.redirect? x := by
          rw [getElem?_foldl_enter_of_ne (Place.key_ne_of_outerFunction? hfound),
            houter outer hfound x]
        by_cases hname : y = x
        · simp [hname, Std.HashMap.getD_eq_getD_getElem?, hentry]
        · simpa [Std.HashMap.getElem?_insert, hname, hfound] using ih

/-- The order in which functions are collected is any in which each comes behind the one around it.
-/
theorem holds_foldl_collect {places : List Place} (hkeys : (places.map Place.key).Nodup)
    (houter : ∀ before p after, places = before ++ p :: after →
      ∀ outer, p.outerFunction? = some outer → outer ∈ before) :
    ∀ q ∈ places, (places.foldl collect {}).Holds q := by
  induction places using List.reverseRecOn with
  | nil => simp
  | append_singleton places p ih =>
    rw [map_append, nodup_append] at hkeys
    obtain ⟨hkeys, -, hdisjoint⟩ := hkeys
    have hsplit := ih hkeys fun before q after hplaces =>
      houter before q (after ++ [p]) (by simp [hplaces])
    have hne : ∀ q ∈ places, q.key ≠ p.key := fun q hq =>
      hdisjoint q.key (mem_map_of_mem hq) p.key (by simp)
    rw [foldl_append, foldl_cons, foldl_nil]
    intro q hq
    obtain hq | hq := mem_append.mp hq
    · intro x
      rw [collect, getElem?_foldl_enter_of_ne (hne q hq), hsplit q hq x]
    · rw [mem_singleton.mp hq]
      refine holds_collect (fun x => ?_) fun outer hfound =>
        hsplit outer (houter places p [] rfl outer hfound)
      rw [getElem?_foldl_collect_of_notMem, Std.HashMap.getElem?_empty]
      simpa using fun q hq => hne q hq

/-- The table that a walk through a tree fills passes each name on to where `Place.redirect?` does.
-/
theorem getElem?_foldl_collect_walk {root : Place} (hroot : root.above = []) (hp : p ∈ root.walk)
    (x : Text) :
    (root.walk.foldl collect {})[(p.key, x)]? = p.redirect? x :=
  holds_foldl_collect root.nodup_walk
    (fun _ _ _ hwalk _ => Place.mem_before_of_outerFunction? hroot hwalk) p hp x

end Redirections

end NameInference

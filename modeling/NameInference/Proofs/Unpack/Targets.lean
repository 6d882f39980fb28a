import NameInference.Proofs.Scope.AtPosition

/-!
# What unpacking gives to a name

A display is unpacked into a pattern of names, level by level: a target gets an item, a star gets
the items that are left. `Receives` says so over a rule that says which item goes to a target.

* `fromEnds` is the rule of the language: behind a star, items are counted from the end.
* `fromFront` counts all items from the front, which is the same in front of stars
  (`Receives.fromFront_of_inFront`).
-/

namespace NameInference

open List Place

namespace Place

/-- The elements of a tuple or a list. -/
def sequence? (p : Place) : Option (List Place) :=
  match p.form with
  | .tuple elements | .list elements => some elements
  | _ => none

/-- Whether a star stands before the place, next to it. -/
def followsStar (p : Place) : Bool :=
  match p.above with
  | [] => false
  | (i, n) :: rest => ((⟨p.tree, n, rest⟩ : Place).children.take i).any isStarred

/-- Whether a star stands before the wanted place at any level below the target. -/
def isBehindStar (target wanted : Place) : Bool :=
  wanted.upwards.any fun p => decide (target.depth < p.depth) && p.followsStar

variable {p q t wanted : Place} {elements : List Place} {i : Nat}

theorem form_of_sequence? (h : p.sequence? = some elements) :
    p.form = .tuple elements ∨ p.form = .list elements := by
  unfold sequence? at h
  split at h
  · next heq => cases h; exact .inl heq
  · next heq => cases h; exact .inr heq
  · cases h

theorem sequence?_eq_children (h : p.sequence? = some elements) : elements = p.children := by
  rw [← parts_form]
  rcases form_of_sequence? h with h | h <;> rw [h] <;> rfl

theorem exists_enter_of_getElem? (h : p.children[i]? = some q) : ∃ n, q = p.enter i n := by
  rw [children, getElem?_mapIdx] at h
  obtain ⟨n, -, rfl⟩ := Option.map_eq_some_iff.mp h
  exact ⟨n, rfl⟩

theorem tree_of_mem_walk (h : q ∈ p.walk) : q.tree = p.tree := by
  refine walk_induction (P := fun q => q.tree = p.tree) (fun a ha child hchild => ?_) rfl q h
  obtain ⟨i, n, -, -, rfl⟩ := exists_enter_of_mem_children hchild
  exact ha

theorem covers_of_getElem? {inner : List Nat} {k : Nat} (htree : p.tree = wanted.tree)
    (hpath : wanted.path = inner ++ i :: p.path) (h : p.children[k]? = some q) :
    q.covers wanted = decide (k = i) := by
  obtain ⟨n, rfl⟩ := exists_enter_of_getElem? h
  exact covers_enter htree hpath

/-- Of elements of which only one holds a place, it is the first that does. -/
theorem find?_covers (hcovers : ∀ k e, elements[k]? = some e → e.covers wanted = decide (k = i))
    (hi : elements[i]? = some t) : elements.find? (·.covers wanted) = some t := by
  obtain ⟨hlt, rfl⟩ := List.getElem?_eq_some_iff.mp hi
  rw [find?_eq_some_iff_getElem]
  refine ⟨by simp [hcovers i _ hi], i, hlt, rfl, fun j hj => ?_⟩
  rw [hcovers j _ (getElem?_eq_getElem (hj.trans hlt))]
  simp [Nat.ne_of_lt hj]

end Place

namespace Infer

variable {wanted t : Place} {elements : List Place} {i : Nat}

/-- The element on the way to a place is found with its number. -/
theorem elementHolding?_eq
    (hcovers : ∀ k e, elements[k]? = some e → e.covers wanted = decide (k = i))
    (hi : elements[i]? = some t) : elementHolding? wanted elements = some (i, t) := by
  obtain ⟨hlt, rfl⟩ := List.getElem?_eq_some_iff.mp hi
  have hfound : (elements.zipIdx.find? fun e => e.1.covers wanted) = some (elements[i], i) := by
    rw [find?_eq_some_iff_getElem]
    refine ⟨by simp [hcovers i _ hi], i, by simpa using hlt, by simp, fun j hj => ?_⟩
    rw [getElem_zipIdx, hcovers j _ (getElem?_eq_getElem (hj.trans hlt))]
    simp [Nat.ne_of_lt hj]
  exact congrArg (Option.map fun e : Place × Nat => (e.2, e.1)) hfound

end Infer

namespace Unpack

/-- What a name gets: one item of a display, or a list of the items that are left. -/
inductive Received where
  | item (element : Place)
  | rest

/-- There is a target for each item, or a star for those that are left. -/
def Fits (targets : List Place) (items : Nat) : Prop :=
  targets.countP Place.isStarred = 0 ∧ items = targets.length ∨
    targets.countP Place.isStarred = 1 ∧ targets.length ≤ items + 1

instance (targets : List Place) (items : Nat) : Decidable (Fits targets items) :=
  inferInstanceAs (Decidable (_ ∨ _))

/-- Items are counted from the front. -/
def fromFront (_ : List Place) (i _ : Nat) : Nat := i

/-- Items are counted from the front, but from the end behind a star. -/
def fromEnds (targets : List Place) (i items : Nat) : Nat :=
  if (targets.take i).any Place.isStarred then items + i - targets.length else i

/-- What a name in a target gets of a value, under a rule for the number of the item that goes to a
target. -/
inductive Receives (rule : List Place → Nat → Nat → Nat) :
    Place → Place → Place → Received → Prop where
  | whole {target value : Place} {id : Text} (form : target.form = .name id) :
      Receives rule target value target (.item value)
  | item {target value t v wanted : Place} {targets items : List Place} {i : Nat}
    {received : Received}
      (pattern : target.sequence? = some targets) (display : value.sequence? = some items)
      (plain : items.any Place.isStarred = false) (fits : Fits targets items.length)
        (place : targets[i]? = some t)
      (single : t.isStarred = false) (given : items[rule targets i items.length]? = some v)
      (inner : Receives rule t v wanted received) : Receives rule target value wanted received
  | rest {target value t wanted : Place} {targets items : List Place} {i : Nat} {id : Text}
      (pattern : target.sequence? = some targets) (display : value.sequence? = some items)
      (plain : items.any Place.isStarred = false) (fits : Fits targets items.length)
        (place : targets[i]? = some t)
      (star : t.form = .starred wanted) (form : wanted.form = .name id) :
        Receives rule target value wanted .rest

/-- The target with a number, and the item that goes to it. -/
def step? (rule : List Place → Nat → Nat → Nat) (target value : Place) (i : Nat) :
    Option (Place × Place) := do
  let targets ← target.sequence?
  let items ← value.sequence?
  let t ← targets[i]?
  let v ← items[rule targets i items.length]?
  if items.any Place.isStarred = false ∧ Fits targets items.length ∧ t.isStarred = false then
    some (t, v)
  else none

variable {rule : List Place → Nat → Nat → Nat} {target value wanted t : Place} {received : Received}
  {i : Nat}

theorem step?_eq_some {found : Place × Place} (h : step? rule target value i = some found) :
    ∃ targets items, target.sequence? = some targets ∧ value.sequence? = some items ∧
      targets[i]? = some found.1 ∧
      items[rule targets i items.length]? = some found.2 ∧ items.any Place.isStarred = false ∧
      Fits targets items.length ∧ found.1.isStarred = false := by
  simp only [step?, Option.bind_eq_bind, Option.bind_eq_some_iff] at h
  obtain ⟨targets, htargets, items, hitems, t, ht, v, hv, hfound⟩ := h
  split at hfound
  · next hchecks =>
    cases hfound
    exact ⟨targets, items, htargets, hitems, ht, hv, hchecks⟩
  · cases hfound

theorem Receives.of_step? {found : Place × Place} (h : step? rule target value i = some found)
    (inner : Receives rule found.1 found.2 wanted received) :
    Receives rule target value wanted received := by
  obtain ⟨targets, items, htargets, hitems, ht, hv, hplain, hfits, hsingle⟩ := step?_eq_some h
  exact .item htargets hitems hplain hfits ht hsingle hv inner

theorem isStarred_of_form (h : t.form = .starred wanted) : t.isStarred = true := by
  unfold Place.isStarred
  unfold Place.form at h
  revert h
  cases t.node.form <;> intro h <;> first | rfl | cases h

theorem mem_children_of_starred (h : t.form = .starred wanted) : wanted ∈ t.children := by
  rw [← parts_form, h]
  exact mem_singleton_self wanted

/-- A name that gets something of a value is below the target. -/
theorem Receives.mem_walk (h : Receives rule target value wanted received) :
    wanted ∈ target.walk := by
  induction h with
  | whole => exact mem_walk_self _
  | item pattern display plain fits place single given inner ih =>
    obtain rfl := sequence?_eq_children pattern
    have ht := mem_walk_of_mem_children (mem_walk_self _) (mem_of_getElem? place)
    exact mem_walk_of_mem_walk ht ih
  | rest pattern display plain fits place star form =>
    obtain rfl := sequence?_eq_children pattern
    have ht := mem_walk_of_mem_children (mem_walk_self _) (mem_of_getElem? place)
    exact mem_walk_of_mem_children ht (mem_children_of_starred star)

/-- What is no display goes to a name as a whole. -/
theorem Receives.eq_item (h : Receives rule target value wanted received)
    (hvalue : value.sequence? = none) :
    received = .item value := by
  cases h with
  | whole => rfl
  | item pattern display => cases hvalue.symm.trans display
  | rest pattern display => cases hvalue.symm.trans display

/-- Of the targets of a pattern, the one above a place holds it, and no other does. -/
theorem covers_target {targets : List Place} (hpattern : target.sequence? = some targets)
    (hplace : targets[i]? = some t) (hwanted : wanted ∈ t.walk) (k : Nat) (e : Place)
    (hk : targets[k]? = some e) :
    e.covers wanted = decide (k = i) := by
  obtain rfl := sequence?_eq_children hpattern
  obtain ⟨inner, hpath⟩ := suffix_of_mem_walk hwanted
  obtain ⟨n, rfl⟩ := exists_enter_of_getElem? hplace
  have htree : target.tree = wanted.tree := (tree_of_mem_walk hwanted).symm
  exact covers_of_getElem? htree hpath.symm hk

theorem followsStar_of_getElem? {targets : List Place} (hpattern : target.sequence? = some targets)
    (hplace : targets[i]? = some t) : t.followsStar = (targets.take i).any Place.isStarred := by
  obtain rfl := sequence?_eq_children hpattern
  obtain ⟨n, rfl⟩ := exists_enter_of_getElem? hplace
  rfl

/-- A name behind no star gets the item that is counted from the front. -/
theorem Receives.fromFront_of_inFront (h : Receives fromEnds target value wanted received)
    (hfront : target.isBehindStar wanted = false) :
    Receives fromFront target value wanted received := by
  induction h with
  | whole form => exact .whole form
  | rest pattern display plain fits place star form =>
    exact .rest pattern display plain fits place star form
  | @item target _ t _ wanted _ _ i _ pattern display plain fits place single given inner ih =>
    rw [Place.isBehindStar, any_eq_false] at hfront
    obtain rfl := sequence?_eq_children pattern
    have hdepth : t.depth = target.depth + 1 := by
      obtain ⟨n, rfl⟩ := exists_enter_of_getElem? place
      rfl
    -- No star stands before the target on the way, so both rules give it the same item.
    have hplain : (target.children.take i).any Place.isStarred = false := by
      have hstar := hfront t (mem_upwards_of_mem_walk inner.mem_walk)
      rw [← followsStar_of_getElem? pattern place]
      simpa [hdepth] using hstar
    have hinner : t.isBehindStar wanted = false := by
      rw [Place.isBehindStar, any_eq_false]
      intro p hp
      have hstar := hfront p hp
      simp only [Bool.and_eq_true, decide_eq_true_eq, not_and] at hstar ⊢
      exact fun hlt => hstar (by omega)
    rw [fromEnds, if_neg (by simp [hplain])] at given
    exact .item pattern display plain fits place single given (ih hinner)

end Unpack

end NameInference

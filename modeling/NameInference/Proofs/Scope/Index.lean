import NameInference.Inference.Lookup
import NameInference.Proofs.Scope.Plan.Statement

/-!
# What the index of a module holds

The index of a module lists the bindings that the visits of its statements find. A bound name is
listed once, unless it is below a part that visits pass over, and no other name is listed. A binding
belongs to the scope of its name and is listed for that scope or for the one that the name is
redirected to there.
-/

namespace NameInference

open List Place

/-- The bindings of an index, each with the key of the list it is in. -/
def ScopeIndex.listed (index : ScopeIndex) : List ((PlaceKey × Text) × Binding) :=
  index.bindings.toList.flatMap fun x => x.2.map (x.1, ·)

/-- How an entry is listed. -/
def IndexEntry.listing : IndexEntry → List ((PlaceKey × Text) × Binding)
  | binding b => [(((ScopeIndex.home b).key, b.id), b)]
  | _ => []

namespace ScopeIndex

variable {index : ScopeIndex} {key : PlaceKey × Text} {b : Binding}

/-- A binding is listed under a key if the table holds it there. -/
theorem mem_listed : (key, b) ∈ index.listed ↔ b ∈ index.bindings.getD key [] := by
  rw [Std.HashMap.getD_eq_getD_getElem?, listed, mem_flatMap]
  constructor
  · rintro ⟨⟨key', bindings⟩, hmem, hb⟩
    obtain ⟨b', hb', heq⟩ := mem_map.mp hb
    cases heq
    rw [Std.HashMap.mem_toList_iff_getElem?_eq_some.mp hmem]
    exact hb'
  · intro hb
    cases hkey : index.bindings[key]? with
    | none =>
      rw [hkey] at hb
      cases hb
    | some bindings =>
      rw [hkey] at hb
      exact ⟨(key, bindings), Std.HashMap.mem_toList_iff_getElem?_eq_some.mpr hkey,
        mem_map_of_mem hb⟩

/-- The entries of a table are the one under a key and those under the others. -/
theorem flatMap_toList_perm {κ α β : Type} [BEq κ] [Hashable κ] [LawfulBEq κ] [LawfulHashable κ]
    (table : Std.HashMap κ (List α)) (key : κ) (f : κ → α → β) :
    table.toList.flatMap (fun x => x.2.map (f x.1)) ~ (table.getD key []).map (f key) ++
      (table.toList.filter fun x => decide (¬(key == x.1) = true)).flatMap fun x =>
        x.2.map (f x.1) := by
  cases hkey : table[key]? with
  | none =>
    have hothers : (table.toList.filter fun x => decide (¬(key == x.1) = true)) = table.toList := by
      rw [filter_eq_self]
      intro x hx
      have hx' := Std.HashMap.mem_toList_iff_getElem?_eq_some.mp hx
      have hne : key ≠ x.1 := by
        rintro rfl
        rw [hkey] at hx'
        cases hx'
      simpa using hne
    rw [hothers, Std.HashMap.getD_eq_getD_getElem?, hkey]
    rfl
  | some list =>
    have hequiv : (table.insert key list).Equiv table := by
      refine Std.HashMap.Equiv.of_forall_getElem?_eq fun k => ?_
      rw [Std.HashMap.getElem?_insert]
      split
      · next hk => rw [← eq_of_beq hk, hkey]
      · rfl
    rw [Std.HashMap.getD_eq_getD_getElem?, hkey]
    exact (hequiv.toList_perm.symm.trans Std.HashMap.toList_insert_perm).flatMap_right _

/-- An added entry is listed besides what was listed before. -/
theorem listed_add (index : ScopeIndex) (entry : IndexEntry) :
    (index.add entry).listed ~ entry.listing ++ index.listed := by
  cases entry with
  | binding b =>
    have hold := flatMap_toList_perm index.bindings ((home b).key, b.id) fun key b => (key, b)
    have hnew : (index.add (.binding b)).listed ~ _ :=
      Std.HashMap.toList_insert_perm.flatMap_right _
    refine hnew.trans (List.Perm.trans ?_ (hold.symm.cons _))
    simp only [flatMap_cons, map_append, append_assoc]
    exact perm_middle
  | selfAttribute | starImport => exact .refl _

/-- The index of a module lists what its entries say, in some order. -/
theorem listed_ofModule (root : Place) :
    (ofModule root).listed ~ root.moduleEntries.flatMap IndexEntry.listing := by
  have hfold (entries : List IndexEntry) (index : ScopeIndex) :
      (entries.foldl add index).listed ~ entries.flatMap IndexEntry.listing ++ index.listed := by
    induction entries generalizing index with
    | nil => exact .refl _
    | cons entry entries ih =>
      refine (ih _).trans (((listed_add index entry).append_left _).trans ?_)
      rw [flatMap_cons, append_assoc]
      exact perm_append_comm_assoc _ _ _
  have hempty : ({} : ScopeIndex).listed = [] := by simp [listed]
  have hall := hfold root.moduleEntries {}
  rwa [hempty, append_nil] at hall

/-- What is listed under a key is an entry that counts for the key. -/
theorem binding_mem_moduleEntries {root : Place} (hb : (key, b) ∈ (ofModule root).listed) :
    .binding b ∈ root.moduleEntries ∧ key = ((home b).key, b.id) := by
  obtain ⟨entry, hentry, hlisting⟩ := mem_flatMap.mp ((listed_ofModule root).mem_iff.mp hb)
  cases entry with
  | binding b' =>
    obtain ⟨hkey, rfl⟩ := Prod.mk.inj (mem_singleton.mp hlisting)
    exact ⟨hentry, hkey⟩
  | selfAttribute | starImport => cases hlisting

end ScopeIndex

namespace Module

variable {source : Source} {m : Module} (h : Module.ofSource source = .ok m) (tree : Nat)

include h

/-- The statements of an accepted source are visited for what they are. -/
theorem visited_of_ofSource : ∀ child ∈ (Place.root tree m).children,
    child.Visited ⟨.statement, Place.root tree m, none⟩ := by
  intro child hchild
  obtain ⟨hsited, hfits⟩ := sited_of_ofSource h tree child hchild
  obtain ⟨body, hform, -⟩ := fits_of_ofSource h
  obtain ⟨i, n, -, -, rfl⟩ := exists_enter_of_mem_children hchild
  have hroot : (Place.root tree m).node.form = .module body := hform
  refine ⟨⟨hsited, ⟨(i, m.root), rfl, body, hform⟩, ?_, hfits, ?_, fun hname => ?_⟩, rfl⟩
  · rw [isUnread_enter, hroot]
    rfl
  · simp [enclosing?_enter, hroot, Form.isScope, Form.isHeaderPart, Form.header]
  · obtain ⟨kind, ident, hint, default, hparam | ⟨-, hparam⟩⟩ := exists_param_of_isParamName hname
    · have hsuits := hfits.suits
      rw [show ((Place.root tree m).enter i n).node.form = _ from hparam] at hsuits
      cases hsuits.eq_param
    · cases hroot.symm.trans hparam

/-- The entries of an accepted source bind the names that are bound in it and read, each in its
scope. -/
theorem entries_of_ofSource :
    (∀ b, .binding b ∈ (Place.root tree m).moduleEntries → b.Owned) ∧
      (Place.root tree m).moduleEntries.filterMap IndexEntry.name? ~
        (Place.root tree m).boundNames := by
  obtain ⟨body, hform, -⟩ := fits_of_ofSource h
  have hvisited := visited_of_ofSource h tree
  constructor
  · intro b hb
    obtain ⟨child, hchild, hb⟩ := mem_flatMap.mp hb
    exact (hvisited child hchild).entries.1 b hb
  · have hroot : (Place.root tree m).node.form = .module body := hform
    rw [boundNames_eq_flatMap (by simp [hroot]), parts_form, Place.moduleEntries, filterMap_flatMap]
    exact List.Perm.flatMap_left _ fun child hchild => (hvisited child hchild).entries.2

end Module

namespace ScopeIndex

/-- Of the places below a root that are kept, one or none is a given one. -/
theorem countP_same_filter_walk {root p : Place} (hp : p ∈ root.walk) (keep : Place → Bool) :
    (root.walk.filter keep).countP (·.same p) = if keep p then 1 else 0 := by
  have hsame : ∀ q ∈ root.walk, (q.same p && keep q) = true ↔ (q.same p && keep p) = true := by
    intro q hq
    by_cases hkey : q.key = p.key
    · rw [inj_on_of_nodup_map root.nodup_walk hq hp hkey]
    · simp [Place.same, hkey]
  rw [countP_filter, countP_congr hsame]
  split
  · next hkeep =>
    have hcount := count_eq_one_of_mem root.nodup_walk (mem_map_of_mem hp)
    rw [List.count, countP_map] at hcount
    simpa [hkeep, Place.same, Function.comp_def] using hcount
  · next hkeep => simp [hkeep]

section

variable {source : Source} {m : Module} (h : Module.ofSource source = .ok m) (tree : Nat)

include h

/-- The names that are listed are the names that are bound and read. -/
theorem names_listed :
    (ofModule (Place.root tree m)).listed.map (·.2.name) ~ (Place.root tree m).boundNames := by
  refine ((listed_ofModule _).map _).trans
    (.trans (.of_eq ?_) (Module.entries_of_ofSource h tree).2)
  rw [map_flatMap, filterMap_eq_flatMap_toList]
  congr 1
  funext entry
  cases entry <;> rfl

/-- How often a name is listed. -/
theorem countP_listed {p : Place} (hp : p ∈ (Place.root tree m).walk) :
    (ofModule (Place.root tree m)).listed.countP (·.2.name.same p) =
      if p.isBound && !p.isUnread then 1 else 0 := by
  rw [← countP_same_filter_walk hp fun q => q.isBound && !q.isUnread]
  change _ = (Place.root tree m).boundNames.countP (·.same p)
  rw [← (names_listed h tree).countP_eq, countP_map]
  rfl

end

end ScopeIndex

/-- In an accepted source, every bound name is in one binding of the index, or in none if it is
below a hint or a keyword of a class. All names in bindings are bound, and they are listed under
their identifiers. -/
theorem ScopeIndex.listed_once_of_ofSource {source : Source} {m : Module}
    (h : Module.ofSource source = .ok m) (tree : Nat) :
    (∀ p ∈ (Place.root tree m).walk, p.isBound = true →
      (ofModule (Place.root tree m)).listed.countP (·.2.name.same p) =
        if p.isUnread then 0 else 1) ∧
    ∀ e ∈ (ofModule (Place.root tree m)).listed,
      e.2.name ∈ (Place.root tree m).walk ∧ e.2.name.isBound = true ∧
      e.2.name.id? = some e.1.2 := by
  constructor
  · intro p hp hbound
    rw [countP_listed h tree hp, hbound]
    cases p.isUnread <;> rfl
  · rintro ⟨key, b⟩ hb
    have hname := (names_listed h tree).mem_iff.mp (mem_map_of_mem hb)
    obtain ⟨hwalk, hkept⟩ := mem_filter.mp hname
    obtain ⟨hentry, rfl⟩ := binding_mem_moduleEntries hb
    exact ⟨hwalk, (Bool.and_eq_true_iff.mp hkept).1,
      ((Module.entries_of_ofSource h tree).1 b hentry).id⟩

/-- A class with a keyword that binds a name, and a method with a hint, a default and a
comprehension. -/
def Source.boundSample : Source :=
  ⟨"class A(k=(x := 1)):\n def f(self, y: (z := 2) = 3):\n  return [w := t for t in y]\n", []⟩

theorem ScopeIndex.listed_once_of_ofSource_boundSample :
    ∃ m, Module.ofSource .boundSample = .ok m ∧
      ((Place.root 0 m).walk.filter fun p => p.isBound && p.isUnread).map (·.id?.getD []) =
        ["x", "z"] ∧
      (Place.root 0 m).boundNames.map (·.id?.getD []) = ["A", "f", "self", "y", "w", "t"] ∧
      (∀ p ∈ (Place.root 0 m).walk, p.isBound = true →
        (ofModule (Place.root 0 m)).listed.countP (·.2.name.same p) = if p.isUnread then 0 else 1) ∧
      ∀ e ∈ (ofModule (Place.root 0 m)).listed,
        e.2.name ∈ (Place.root 0 m).walk ∧ e.2.name.isBound = true ∧ e.2.name.id? = some e.1.2 := by
  have hnames : (Module.ofSource .boundSample).map (fun m =>
      (((Place.root 0 m).walk.filter fun p => p.isBound && p.isUnread).map (·.id?.getD []),
        (Place.root 0 m).boundNames.map (·.id?.getD []))) =
          .ok (["x", "z"], ["A", "f", "self", "y", "w", "t"]) := by
    decide +kernel
  obtain ⟨m, h, hm⟩ := exists_of_map_eq_ok hnames
  obtain ⟨hunread, hread⟩ := Prod.mk.inj hm
  exact ⟨m, h, hunread, hread, listed_once_of_ofSource h 0⟩

/-- A class whose keyword binds a name. -/
def Source.keywordSample : Source := ⟨"class A(k=(x := 1)):\n    pass\n", []⟩

/-- The name that a keyword of a class binds is in no binding of the index. -/
theorem ScopeIndex.not_listed_keywordSample :
    ∃ m, Module.ofSource .keywordSample = .ok m ∧ ∃ p ∈ (Place.root 0 m).walk, p.isBound = true ∧
      p.id? = some "x" ∧ (ofModule (Place.root 0 m)).listed.countP (·.2.name.same p) = 0 := by
  have hnames : (Module.ofSource .keywordSample).map (fun m =>
      ((Place.root 0 m).walk.filter fun p => p.isBound && p.isUnread).map (·.id?)) =
        .ok [some "x"] := by decide +kernel
  obtain ⟨m, h, hunread⟩ := exists_of_map_eq_ok hnames
  obtain ⟨p, hp, hid⟩ := mem_map.mp (hunread.symm ▸ mem_singleton_self _)
  obtain ⟨hwalk, hkept⟩ := mem_filter.mp hp
  obtain ⟨hbound, hunread⟩ := Bool.and_eq_true_iff.mp hkept
  exact ⟨m, h, p, hwalk, hbound, hid, by simp [countP_listed h 0 hwalk, hunread]⟩

/-- The scope of a place comes first, then those around that scope. -/
theorem Place.scopesAround_of_scope? {p s : Place} (h : p.scope? = some s) :
    p.scopesAround = s :: s.scopesAround := by
  rw [scopesAround]
  split
  · next hnone => cases hnone.symm.trans h
  · next t ht => cases ht.symm.trans h; rfl

/-- The first scope around that is not skipped. -/
theorem Place.find?_scopesAround (skip : Place → Bool) (p : Place) :
    p.scopesAround.find? (fun s => !skip s) = p.scopeBeyond? skip := by
  fun_induction scopeBeyond? skip p with
  | case1 p hnone =>
    rw [scopesAround]
    split
    · rfl
    · next s hs => cases hnone.symm.trans hs
  | case2 p s hs hskip ih => simp [scopesAround_of_scope? hs, hskip, ih]
  | case3 p s hs hskip => simp [scopesAround_of_scope? hs, hskip]

/-- The binding of an accepted source belongs to the scope of its name, or behind `:=` to the first
scope around it that is no comprehension, and is listed for its scope or for the one that the name
is redirected to there. -/
theorem ScopeIndex.owner_of_mem_lookup {source : Source} {m : Module}
    (h : Module.ofSource source = .ok m) (tree : Nat) {scope : Place} {name : Text} {b : Binding}
    (hb : b ∈ (ofModule (Place.root tree m)).lookup scope name) :
    (b.kind ≠ .namedExpr → b.name.scope? = some b.scope) ∧
    (b.kind = .namedExpr → b.name.scopesAround.find? (fun s => !s.isComprehension) = some b.scope) ∧
    b.name.id? = some name ∧
    scope.key = ((b.scope.redirect? name).getD b.scope).key := by
  obtain ⟨hentry, hkey⟩ := binding_mem_moduleEntries (mem_listed.mpr hb)
  obtain ⟨hscope, rfl⟩ := Prod.mk.inj hkey
  obtain ⟨hid, howner⟩ := (Module.entries_of_ofSource h tree).1 b hentry
  refine ⟨fun hkind => ?_, fun hkind => ?_, hid, hscope⟩
  · rwa [if_neg hkind] at howner
  · rwa [if_pos hkind, ← find?_scopesAround] at howner

/-- A comprehension that binds a name which its function declares global. -/
def Source.globalSample : Source := ⟨"def f(y):\n global x\n return [x := z for z in y]\n", []⟩

theorem ScopeIndex.owner_of_mem_lookup_globalSample :
    ∃ m, Module.ofSource .globalSample = .ok m ∧
      ∃ b ∈ (ofModule (Place.root 0 m)).lookup (Place.root 0 m) "x",
      b.kind = .namedExpr ∧ b.scope.isFunction = true ∧
      (b.kind ≠ .namedExpr → b.name.scope? = some b.scope) ∧
      (b.kind = .namedExpr →
        b.name.scopesAround.find? (fun s => !s.isComprehension) = some b.scope) ∧
      b.name.id? = some "x" ∧
      (Place.root 0 m).key = ((b.scope.redirect? "x").getD b.scope).key := by
  have hlisted : (Module.ofSource .globalSample).map (fun m =>
      ((Place.root 0 m).moduleEntries.flatMap IndexEntry.listing).any fun e =>
        e.1 == ((Place.root 0 m).key, ("x" : Text)) && e.2.kind == .namedExpr &&
        e.2.scope.isFunction) = .ok true := by
    decide +kernel
  obtain ⟨m, h, hany⟩ := exists_of_map_eq_ok hlisted
  obtain ⟨⟨key, b⟩, hb, hfound⟩ := any_eq_true.mp hany
  simp only [Bool.and_eq_true, beq_iff_eq] at hfound
  obtain ⟨⟨rfl, hkind⟩, hscope⟩ := hfound
  have hmem := mem_listed.mp ((listed_ofModule _).mem_iff.mpr hb)
  exact ⟨m, h, b, hmem, hkind, hscope, owner_of_mem_lookup h 0 hmem⟩

end NameInference

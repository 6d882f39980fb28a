import NameInference.Inference.Bindings
import NameInference.Proofs.Inference.Selection
import NameInference.Proofs.Scope.Entries
import NameInference.Proofs.Scope.Places

/-!
# Definitions at the top of a module

A class or function that a module defines once, directly among its statements and without
decorators, is the one binding that the index has for its name. It is reached from everywhere, so a
look-up in the scope of the module finds it and nothing else, unless the look-up passes over private
names.
-/

namespace NameInference

variable {m : Type → Type}

/-- Whether a name begins with an underscore without being one of the names with two of them at both
ends. -/
def isPrivate (name : Text) : Bool := name.startsWith "_" && !isDunder name

namespace Place

variable {p q : Place} {x : Text}

/-- The binding of what a definition defines, as a statement of the given scope. -/
def bindingIn (p scope : Place) : Binding :=
  ⟨p.definedAt?.getD p, p.definedName?.getD [], p, if p.isClass then .classDef
    else .functionDef, scope⟩

/-- What identifies the name of a definition. -/
def nameKey (p : Place) : PlaceKey := (p.definedAt?.getD p).key

/-- The value of what a definition defines, as a statement of the given module. -/
def valueIn (p : Place) (module : ValueId) : Value Place :=
  if p.isClass then .cls p module else .function p module none

/-- A definition has a name. -/
theorem exists_definedAt? (h : p.definedName? = some x) :
    ∃ name, p.definedAt? = some name ∧ name.id? = some x := by
  have heq : p.definedName? = p.definedAt?.bind Place.id? := by
    obtain ⟨tree, ⟨span, usage, form⟩, above⟩ := p
    cases form <;> rfl
  rw [heq] at h
  exact Option.bind_eq_some_iff.mp h

/-- The name of a definition is a part of it. -/
theorem mem_children_of_definedAt? (h : p.definedAt? = some q) : q ∈ p.children := by
  rw [← parts_form]
  unfold definedAt? at h
  split at h
  · next hform =>
    cases h
    simp [hform, Form.parts]
  · next hform =>
    cases h
    simp [hform, Form.parts]
  · cases h

/-- Among the statements of a scope, a definition adds its binding to the index. -/
theorem add_mem_planStatement (h : p.definedName? = some x) (scope : Place)
    (frame : Option MethodFrame) :
    .add (.binding (p.bindingIn scope)) ∈ p.planStatement scope frame := by
  obtain ⟨name, hat, hid⟩ := exists_definedAt? h
  have hentry (kind : BindingKind) :
      .add (.binding ⟨name, x, p, kind, scope⟩) ∈ name.bindingEntry p kind scope := by
    rw [bindingEntry, hid]
    exact List.mem_singleton_self _
  rw [bindingIn, hat, h]
  obtain ⟨tree, ⟨span, usage, form⟩, above⟩ := p
  cases form with
  | functionDef =>
    cases hat
    simp only [planStatement, Place.form, Node.form, Form.number, isClass, List.mem_append]
    exact .inl (.inl (.inl (.inr (hentry .functionDef))))
  | classDef =>
    cases hat
    simp only [planStatement, Place.form, Node.form, Form.number, isClass, List.mem_append]
    exact .inl (.inr (hentry .classDef))
  | _ => cases h

end Place

/-- The module defines a class or function once, directly among its statements and without
decorators. -/
structure Module.Defines (source : Module) (n : Nat) (x : Text) (p : Place) : Prop where
  isModule : ∃ body, source.root.form = .module body
  top : p ∈ (Place.root n source).children
  named : p.definedName? = some x
  plain : Infer.decoratorsOf p = []
  once : ((ScopeIndex.ofModule (.root n source)).lookup (.root n source) x).length = 1

namespace Module.Defines

variable {source : Module} {n : Nat} {x : Text} {p : Place} (h : source.Defines n x p)

include h

/-- A module passes no name on. -/
theorem redirect?_root (y : Text) : (Place.root n source).redirect? y = none := by
  obtain ⟨body, hform⟩ := h.isModule
  have hbody : (Place.root n source).functionBody = [] := by
    rw [Place.functionBody, show (Place.root n source).node.form = .module body from hform]
  have hdeclared : (Place.root n source).declaredGlobal? y = none := by
    rw [Place.declaredGlobal?, hbody]
    rfl
  rw [Place.redirect?, hdeclared]

theorem lookup_eq :
    (ScopeIndex.ofModule (.root n source)).lookup (.root n source) x =
      [p.bindingIn (.root n source)] := by
  have hid : (p.bindingIn (.root n source)).id = x := by
    rw [Place.bindingIn, h.named]
    rfl
  have hhome : ScopeIndex.home (p.bindingIn (.root n source)) = .root n source := by
    rw [ScopeIndex.home, show (p.bindingIn (.root n source)).scope = .root n source from rfl,
      h.redirect?_root]
    rfl
  have hentry : .binding (p.bindingIn (.root n source)) ∈ (Place.root n source).moduleEntries := by
    refine List.mem_flatMap.mpr ⟨p, h.top, ?_⟩
    rw [Place.entriesOf]
    exact List.mem_flatMap.mpr ⟨_, Place.add_mem_planStatement h.named _ _,
      List.mem_singleton_self _⟩
  have hmem : p.bindingIn (.root n source) ∈ (ScopeIndex.ofModule (.root n source)).lookup
      (.root n source) x := by
    rw [ScopeIndex.lookup_ofModule]
    refine List.mem_filterMap.mpr ⟨_, hentry, ?_⟩
    rw [IndexEntry.binding?, hhome, hid, if_pos rfl]
  obtain ⟨b, hb⟩ := List.length_eq_one_iff.mp h.once
  rw [hb, List.mem_singleton] at hmem
  rw [hb, hmem]

/-- What governs the name of a definition at the top of a module is a scope. -/
theorem isScope_of_governor? {name flow : Place} (hname : name ∈ p.children)
    (hflow : name.governor? = some flow) :
    flow.node.form.isScope = true := by
  obtain ⟨body, hmodule⟩ := h.isModule
  have hscope : p.node.form.isScope = true := by
    have hnamed := h.named
    unfold Place.definedName? at hnamed
    split at hnamed
    · next hform => rw [hform, Form.isScope]
    · next hform => rw [hform, Form.isScope]
    · cases hnamed
  obtain ⟨j, n', -, -, rfl⟩ := Place.exists_enter_of_mem_children h.top
  obtain ⟨i, n'', -, -, rfl⟩ := Place.exists_enter_of_mem_children hname
  rw [Place.governor?, Place.enter, Place.enter, Place.root] at hflow
  simp only [Place.governorAlong] at hflow
  split at hflow
  · cases hflow
    exact hscope
  · split at hflow
    · cases hflow
      rw [hmodule, Form.isScope]
    · cases hflow

/-- What is defined at the top of a module is reached. -/
theorem reachability_eq [Monad m] [LawfulMonad m] (check : Place → m Reachability) :
    (p.bindingIn (.root n source)).name.reachability check (some (.root n source)) none =
      pure .reachable := by
  obtain ⟨name, hat, -⟩ := Place.exists_definedAt? h.named
  have hname : (p.bindingIn (.root n source)).name = name := by
    rw [Place.bindingIn, hat]
    rfl
  rw [hname, Place.reachability]
  simp only [Option.bind_none]
  cases hgovernor : name.governor? with
  | none => rfl
  | some flow =>
    have hscope := h.isScope_of_governor? (Place.mem_children_of_definedAt? hat) hgovernor
    exact Place.verdictUpTo_of_isScope check hscope

end Module.Defines

namespace Infer

variable {source : Module} {n : Nat} {x : Text} {p : Place} {s : Session}

theorem bindingVerdict_eq (hx : source.Defines n x p) (module : ValueId) :
    bindingVerdict module (.root n source) none (p.bindingIn (.root n source)) =
      pure .reachable := by
  have hoverload : (p.bindingIn (.root n source)).isOverload = false := by
    have hplain := hx.plain
    unfold decoratorsOf at hplain
    unfold Binding.isOverload Place.bindingIn
    cases hform : p.form <;> simp_all
  rw [bindingVerdict, hx.reachability_eq, hoverload]
  simp [Place.bindingIn, Place.same]

/-- In the scope of its module a definition is found, unless private names are hidden there and its
name is private. -/
theorem scopeNames_eq (hx : source.Defines n x p) (hstored : s.tree? n = some (.ofModule n source))
    (module : ValueId) (hides : Bool) (calls : Calls) :
    scopeNames module (.root n source) none none (if hides then .descriptor true else .plain) x
      calls s =
      (.ok (if hides && isPrivate x then [] else [.tree (p.bindingIn (.root n source)) module]),
        s) := by
  have hindex : (s.indexOf (.root n source)).lookup (.root n source) x =
      [p.bindingIn (.root n source)] := by
    rw [Session.indexOf, show (Place.root n source).tree = n from rfl, hstored]
    exact hx.lookup_eq
  have hid : (p.bindingIn (.root n source)).id = x := by
    rw [Place.bindingIn, hx.named]
    rfl
  have hexported : (p.bindingIn (.root n source)).isExported = !isPrivate x := by
    have hkind : ((p.bindingIn (.root n source)).kind == .importName ||
        (p.bindingIn (.root n source)).kind == .importFrom) = false := by
      unfold Place.bindingIn
      cases p.isClass <;> rfl
    rw [Binding.isExported, hkind, hid, isPrivate]
    simp
  have hselect (view : ScopeView)
    (hview : view.isAccessible (.root n source) none (p.bindingIn (.root n source)) = true) :
      Bindings.select (bindingVerdict module (.root n source) none) view.isVisible
        (view.isAccessible (.root n source) none) none [p.bindingIn (.root n source)] =
      pure (if view.isVisible (p.bindingIn (.root n source)) then [p.bindingIn (.root n source)]
        else []) :=
    Bindings.select_singleton (bindingVerdict_eq hx module) hview
  have hinspect : inspect (fun s => (s.indexOf (.root n source)).lookup (.root n source) x)
      calls s = (.ok [p.bindingIn (.root n source)], s) := by
    rw [← hindex]
    rfl
  rw [scopeNames, ScopeIndex.isRedirected, hx.redirect?_root, if_neg (by simp), bind_of_ok hinspect]
  cases hides with
  | false =>
    rw [if_neg (by simp), hselect _ rfl]
    rfl
  | true =>
    rw [if_pos rfl, hselect _ rfl]
    simp only [ScopeView.isVisible, hexported]
    cases isPrivate x <;> rfl

end Infer

end NameInference

import NameInference.Scope.Binding
import NameInference.Proofs.Scope.Header

/-!
# What visits find

The names that a tree binds, in source order, are the names that are marked as bound. Visits reach
all of them but those below the parts that they pass over, each once, and a name is found in the
scope that it belongs to. A plan is taken apart into the parts it deals with: here is what one part
contributes, in its role and in the scope around it.
-/

namespace NameInference

open List

namespace Form

variable {ν : Type}

/-- Parts that are passed over: the hints of parameters, results and assignments, and the keywords
of a class. -/
def isUnreadPart (i : Nat) : Form ν → Bool
  | functionDef _ _ decorators _ params returns _ =>
    decorators.length + 1 + params.length ≤ i && i < decorators.length + 1 + params.length +
      returns.toList.length
  | classDef _ decorators _ bases keywords _ =>
    decorators.length + 1 + bases.length ≤ i && i < decorators.length + 1 + bases.length +
      keywords.length
  | param _ _ hint _ => 1 ≤ i && i < 1 + hint.toList.length
  | assign targets hint _ => targets.length ≤ i && i < targets.length + hint.toList.length
  | _ => false

section Numbering

variable {μ : Type} (f : Nat → ν → μ)

/-- The function that numbers the second of each pair. -/
def numberSecond (i : Nat) (x : Role × ν) : Role × μ := (x.1, f i x.2)

theorem map_numberList (r : Role) (k : Nat) (xs : List ν) :
    (numberList f k xs).map (r, ·) = numberList (numberSecond f) k (xs.map (r, ·)) := by
  ext i y
  simp [numberList, numberSecond, Function.comp_def]

theorem map_numberKeywords (r : Role) (k : Nat) (xs : List (Keyword ν)) :
    (numberKeywords f k xs).map (fun x => (r, x.value)) =
      numberList (numberSecond f) k (xs.map fun x => (r, x.value)) := by
  ext i y
  simp [numberKeywords, numberList, numberSecond, Function.comp_def]

theorem flatMap_numberClauses (k : Nat) (cs : List (Clause ν)) :
    (numberClauses f k cs).flatMap Clause.roles = numberList (numberSecond f) k
      (cs.flatMap Clause.roles) := by
  induction cs generalizing k with
  | nil => rfl
  | cons c cs ih =>
    rw [numberClauses, flatMap_cons, flatMap_cons, ih, numberList_append]
    simp [Clause.roles, Clause.parts, map_numberList, numberSecond]

/-- Numbering keeps the roles of parts. -/
theorem roles_number (role : Role) (form : Form ν) :
    (form.number f).roles role = (form.roles role).mapIdx (numberSecond f) := by
  rw [← numberList_eq_mapIdx]
  cases form <;>
    simp [number, roles, parts, numberList_append, toList_numberOption, values_numberKeywords,
      operands_numberComparisons, parts_numberEntries, map_numberList, map_numberKeywords,
      flatMap_numberClauses, numberSecond, Nat.add_assoc, Nat.add_comm, Nat.add_left_comm]

@[simp] theorem isScope_number (form : Form ν) : (form.number f).isScope = form.isScope := by
  cases form <;> rfl

@[simp] theorem length_numberKeywords (k : Nat) (xs : List (Keyword ν)) :
    (numberKeywords f k xs).length = xs.length := by
  simp [numberKeywords]

@[simp] theorem isEmpty_numberClauses (k : Nat) (cs : List (Clause ν)) :
    (numberClauses f k cs).isEmpty = cs.isEmpty := by
  cases cs <;> rfl

@[simp] theorem isHeaderPart_number (i : Nat) (form : Form ν) :
    (form.number f).isHeaderPart i = form.isHeaderPart i := by
  cases form <;> simp [number, isHeaderPart, header, toList_numberOption]

@[simp] theorem isUnreadPart_number (i : Nat) (form : Form ν) :
    (form.number f).isUnreadPart i = form.isUnreadPart i := by
  cases form <;> simp [number, isUnreadPart, toList_numberOption]

end Numbering

end Form

theorem Role.Suits.eq_param {role : Role} {usage : Usage} {kind : ParamKind} {name : Node}
    {hint default : Option Node} (h : role.Suits usage (.param kind name hint default)) :
    role = .param := by
  cases h with
  | param => rfl
  | statement kind _ | expression kind _ | target kind _ => cases kind

/-- The role of what a task is for. -/
def IndexTask.role : IndexTask → Role
  | statement => .statement
  | expression => .expression
  | parameterDefault => .param
  | target _ _ => .target

/-- The target of `:=`, which no visit is for. -/
def IndexTask.isNamed : IndexTask → Bool
  | target _ kind => kind == .namedExpr
  | _ => false

/-- Whether a visit is for all that is bound from its place on down. -/
def IndexTask.isFull : IndexTask → Bool
  | statement | expression => true
  | target _ kind => kind != .namedExpr
  | parameterDefault => false

theorem IndexTask.isNamed_of_isFull {task : IndexTask} (h : task.isFull = true) :
    task.isNamed = false := by
  cases task with
  | target definition kind => simpa [isFull, isNamed] using h
  | _ => rfl

/-- The name of an entry that binds one. -/
def IndexEntry.name? : IndexEntry → Option Place
  | binding b => some b.name
  | _ => none

namespace Place

/-- A name that is bound where it stands. -/
def isBound (p : Place) : Bool := p.id?.isSome && p.node.usage == .store

/-- Whether the place is below a part that is passed over. -/
def isUnread (p : Place) : Bool := p.above.any fun x => x.2.form.isUnreadPart x.1

/-- The bound names from a place on down, but for those that are passed over. -/
def boundNames (p : Place) : List Place := p.walk.filter fun q => q.isBound && !q.isUnread

/-- The names that a visit for a task finds. -/
def namesFor (p : Place) : IndexTask → List Place
  | .parameterDefault =>
    match p.form with
    | .param _ _ _ default => default.toList.flatMap boundNames
    | _ => []
  | _ => p.boundNames

/-- The names that a step of a plan finds. -/
def stepNames (p : Place) : IndexStep → List Place
  | .add entry => entry.name?.toList
  | .visit i visit => p.children[i]?.toList.flatMap (·.namesFor visit.task)

/-- The way up ends at a module. -/
def Grounded (p : Place) : Prop := ∃ x ∈ p.above.getLast?, ∃ body, x.2.form = .module body

end Place

/-- The binding belongs to the scope of its name; behind `:=`, to the first one that is no
comprehension. Only the name of a parameter is taken for one. -/
structure Binding.Owned (b : Binding) : Prop where
  id : b.name.id? = some b.id
  owner : (if b.kind = .namedExpr then b.name.scopeBeyond? Place.isComprehension
    else b.name.scope?) = some b.scope
  isParamName : b.kind ≠ .param → b.name.isParamName = false

namespace Place

variable {p q : Place} {v w : IndexVisit}

@[simp] theorem isUnread_enter (p : Place) (i : Nat) (n : Node) :
    (p.enter i n).isUnread = (p.node.form.isUnreadPart i || p.isUnread) := rfl

theorem enclosing?_enter (p : Place) (i : Nat) (n : Node) :
    (p.enter i n).enclosing? =
      if p.node.form.isScope && !p.node.form.isHeaderPart i then some p else p.enclosing? := rfl

theorem isUnread_of_mem_walk (h : p.isUnread = true) : ∀ q ∈ p.walk, q.isUnread = true := by
  refine walk_induction (P := fun q => q.isUnread = true) (fun a ha child hchild => ?_) h
  obtain ⟨i, n, -, -, rfl⟩ := exists_enter_of_mem_children hchild
  simp [ha]

theorem boundNames_of_isUnread (h : p.isUnread = true) : p.boundNames = [] := by
  rw [boundNames, filter_eq_nil_iff]
  intro q hq
  simp [isUnread_of_mem_walk h q hq]

theorem boundNames_eq (p : Place) :
    p.boundNames = (if p.isBound && !p.isUnread then [p] else []) ++
      p.children.flatMap boundNames := by
  rw [boundNames, walk_eq, filter_cons, filter_flatMap]
  split <;> rfl

theorem boundNames_of_not_isBound (h : p.isBound = false) :
    p.boundNames = p.children.flatMap boundNames := by
  simp [boundNames_eq p, h]

/-- A bound name is the only one from itself on down. -/
theorem boundNames_of_name {id : Text} (hform : p.node.form = .name id)
    (husage : p.node.usage = .store) (hread : p.isUnread = false) : p.boundNames = [p] := by
  rw [boundNames_eq, hread]
  simp [isBound, id?, Node.id?, hform, husage, children, Node.children, Form.parts]

theorem boundNames_of_fits (h : p.node.Fits .bound) (hread : p.isUnread = false) :
    p.boundNames = [p] := by
  obtain ⟨id, hform, husage⟩ := h.exists_name
  exact boundNames_of_name hform husage hread

/-- A grounded place has a scope, which is the module or grounded itself. -/
theorem Grounded.exists_scope? (h : p.Grounded) :
    ∃ s, p.scope? = some s ∧ (s.isComprehension = false ∨ s.Grounded) := by
  obtain ⟨x, hx, body, hbody⟩ := h
  rw [scope?]
  generalize p.above = above at hx
  induction above with
  | nil => cases hx
  | cons y rest ih =>
    rw [governorAlong]
    split
    · refine ⟨_, rfl, ?_⟩
      cases rest with
      | nil =>
        obtain rfl : y = x := by simpa using hx
        exact Or.inl (by simp [isComprehension, hbody])
      | cons z rest => exact Or.inr ⟨x, hx, body, hbody⟩
    · next hskip =>
      cases rest with
      | nil =>
        obtain rfl : y = x := by simpa using hx
        simp [hbody, Form.isScope, Form.isOuterPart] at hskip
      | cons z rest => exact ih hx

theorem scopeBeyond?_of_scope? {s : Place} (h : p.scope? = some s) :
    p.scopeBeyond? isComprehension = s.beyondComprehensions? := by
  rw [scopeBeyond?]
  split
  · next hnone => cases hnone.symm.trans h
  · next t ht =>
    cases ht.symm.trans h
    rfl

/-- Behind comprehensions there is a scope in the end. -/
theorem Grounded.exists_scopeBeyond? (h : p.Grounded) :
    ∃ s, p.scopeBeyond? isComprehension = some s := by
  fun_induction scopeBeyond? isComprehension p with
  | case1 p hnone =>
    obtain ⟨s, hs, -⟩ := h.exists_scope?
    cases hnone.symm.trans hs
  | case2 p s hs hskip ih =>
    obtain ⟨t, ht, hplain | hgrounded⟩ := h.exists_scope?
    · cases hs.symm.trans ht
      rw [hplain] at hskip
      cases hskip
    · cases hs.symm.trans ht
      exact ih hgrounded
  | case3 p s => exact ⟨s, rfl⟩

theorem Grounded.child (h : p.Grounded) {child : Place} (hchild : child ∈ p.children) :
    child.Grounded := by
  obtain ⟨x, hx, body, hbody⟩ := h
  obtain ⟨i, n, -, -, rfl⟩ := exists_enter_of_mem_children hchild
  refine ⟨x, ?_, body, hbody⟩
  cases habove : p.above with
  | nil =>
    rw [habove] at hx
    cases hx
  | cons y rest =>
    rw [habove] at hx
    simpa [enter, habove] using hx

/-- A place that is read, in its role and in the scope around it. -/
structure Stands (p : Place) (role : Role) (scope : Place) : Prop where
  sited : p.Sited
  grounded : p.Grounded
  read : p.isUnread = false
  fits : p.node.Fits role
  enclosing : p.enclosing? = some scope
  isParamName : p.isParamName = true → role = .param ∨ role = .bound

/-- A visit of a place in its role and in the scope around it. -/
structure Visited (p : Place) (v : IndexVisit) : Prop where
  stands : p.Stands v.task.role v.scope
  isNamed : v.task.isNamed = false

/-- The steps visit children of the place, they bind in the right scopes, and they find the given
names. -/
structure Treats (p : Place) (steps : List IndexStep) (names : List Place) : Prop where
  visited : ∀ i w, .visit i w ∈ steps → ∃ q, p.children[i]? = some q ∧ q.Visited w
  owned : ∀ b, .add (.binding b) ∈ steps → b.Owned
  names : steps.flatMap p.stepNames ~ names

namespace Treats

variable {steps more : List IndexStep} {names names' : List Place}

theorem nil : p.Treats [] [] := ⟨by simp, by simp, .nil⟩

theorem append (h : p.Treats steps names) (h' : p.Treats more names') :
    p.Treats (steps ++ more) (names ++ names') where
  visited i w hw := (mem_append.mp hw).elim (h.visited i w) (h'.visited i w)
  owned b hb := (mem_append.mp hb).elim (h.owned b) (h'.owned b)
  names := by
    rw [flatMap_append]
    exact h.names.append h'.names

theorem perm (h : p.Treats steps names) (hperm : names ~ names') : p.Treats steps names' :=
  ⟨h.visited, h.owned, h.names.trans hperm⟩

theorem flatMap {α : Type} {xs : List α} {f : α → List IndexStep} {g : α → List Place}
    (h : ∀ x ∈ xs, p.Treats (f x) (g x)) : p.Treats (xs.flatMap f) (xs.flatMap g) := by
  induction xs with
  | nil => exact nil
  | cons x xs ih =>
    obtain ⟨hx, hxs⟩ := forall_mem_cons.mp h
    exact hx.append (ih hxs)

/-- Other entries bind no names. -/
theorem of_adds (h : ∀ step ∈ steps, ∃ entry, step = .add entry ∧ entry.name? = none) :
    p.Treats steps [] where
  visited i w hw := by
    obtain ⟨entry, hentry, -⟩ := h _ hw
    cases hentry
  owned b hb := by
    obtain ⟨entry, hentry, hnone⟩ := h _ hb
    cases hentry
    cases hnone
  names := by
    have hnames : steps.flatMap p.stepNames = [] := by
      rw [flatMap_eq_nil_iff]
      intro step hstep
      obtain ⟨entry, rfl, hnone⟩ := h step hstep
      simp [stepNames, hnone]
    rw [hnames]

end Treats

/-- A child is visited for its role. -/
theorem treats_visiting (hchild : q ∈ p.children) (hq : q.Visited w) :
    p.Treats (visiting w q) (q.namesFor w.task) := by
  obtain ⟨i, n, -, hi, rfl⟩ := exists_enter_of_mem_children hchild
  have hnumber : (p.enter i n).number = i := rfl
  refine ⟨?_, by simp [visiting], ?_⟩
  · intro j w' hmem
    cases mem_singleton.mp hmem
    exact ⟨_, hi, hq⟩
  · simp [visiting, stepNames, hnumber, hi]

/-- A name is bound in the scope it belongs to. -/
theorem treats_bindingEntry {name definition scope : Place} {kind : BindingKind} {id : Text}
    (hform : name.node.form = .name id)
    (howner : (if kind = .namedExpr then name.scopeBeyond? isComprehension else name.scope?) =
      some scope) (hparam : kind ≠ .param → name.isParamName = false) :
    p.Treats (bindingEntry name definition kind scope) [name] := by
  have hid : name.id? = some id := by simp [id?, Node.id?, hform]
  rw [bindingEntry, hid]
  refine ⟨by simp, ?_, by simp [stepNames, IndexEntry.name?]⟩
  intro b hb
  cases mem_singleton.mp hb
  exact ⟨hid, howner, hparam⟩

@[simp] theorem number_enter (p : Place) (i : Nat) (n : Node) : (p.enter i n).number = i := rfl

theorem exists_enter_of_mem_roles {role r : Role} (hq : (r, q) ∈ p.form.roles role) :
    ∃ n, (p.node.form.roles role)[q.number]? = some (r, n) ∧ q = p.enter q.number n := by
  rw [form, Form.roles_number] at hq
  obtain ⟨i, hi, hx⟩ := mem_mapIdx.mp hq
  obtain ⟨rfl, rfl⟩ := Prod.mk.inj hx
  exact ⟨_, getElem?_eq_getElem hi, rfl⟩

theorem mem_children_of_mem_roles {role r : Role} (hq : (r, q) ∈ p.form.roles role) :
    q ∈ p.children := by
  rw [← parts_form, ← Form.map_snd_roles role]
  exact mem_map_of_mem hq

/-- A parameter or the name of one is told by its form or by the form above. -/
theorem exists_param_of_isParamName {i : Nat} {n : Node} (h : (p.enter i n).isParamName = true) :
    ∃ kind name hint default, n.form = .param kind name hint default ∨
      i = 0 ∧ p.node.form = .param kind name hint default := by
  unfold isParamName at h
  split at h
  · next hform => exact ⟨_, _, _, _, Or.inl hform⟩
  · next habove _ =>
    cases habove
    split at h
    · next hform => exact ⟨_, _, _, _, Or.inr ⟨rfl, hform⟩⟩
    · cases h
  · cases h

section Parts

variable {role r : Role} {scope s : Place} (h : p.Stands role scope)

include h

/-- Only a parameter and its name are taken for a parameter. -/
theorem Stands.role_of_isParamName (hq : (r, q) ∈ p.form.roles role)
    (hname : q.isParamName = true) :
    r = .param ∨ r = .bound ∧ role = .param := by
  obtain ⟨n, hn, henter⟩ := exists_enter_of_mem_roles hq
  rw [henter] at hname
  obtain ⟨kind, name, hint, default, hform | ⟨hnumber, hform⟩⟩ := exists_param_of_isParamName hname
  · have hsuits := (h.fits.part _ (mem_of_getElem? hn)).suits
    rw [hform] at hsuits
    exact Or.inl hsuits.eq_param
  · have hsuits := h.fits.suits
    rw [hform] at hsuits
    rw [hnumber, hform, Form.roles, getElem?_cons_zero] at hn
    cases hn
    exact Or.inr ⟨rfl, hsuits.eq_param⟩

theorem Stands.part (hq : (r, q) ∈ p.form.roles role) (hread : p.form.isUnreadPart q.number = false)
    (hscope : (if p.form.isScope && !p.form.isHeaderPart q.number then p else scope) = s) :
    q.Stands r s := by
  have hchild := mem_children_of_mem_roles hq
  have hname := fun hname => (h.role_of_isParamName hq hname).imp id And.left
  obtain ⟨n, hn, henter⟩ := exists_enter_of_mem_roles hq
  simp only [form, Form.isUnreadPart_number, Form.isScope_number,
    Form.isHeaderPart_number] at hread hscope
  refine ⟨h.sited.child hchild, h.grounded.child hchild, ?_, ?_, ?_, hname⟩
  · rw [henter]
    simp [hread, h.read]
  · rw [henter]
    exact h.fits.part _ (mem_of_getElem? hn)
  · rw [henter, enclosing?_enter, h.enclosing, ← hscope]
    split <;> rfl

/-- A part is visited for what it binds. -/
theorem Stands.treats_part (hfull : w.task.isFull = true)
    (hq : (w.task.role, q) ∈ p.form.roles role) (hread : p.form.isUnreadPart q.number = false)
    (hscope : (if p.form.isScope && !p.form.isHeaderPart q.number then p else scope) = w.scope) :
    p.Treats (visiting w q) q.boundNames := by
  have hnames : q.namesFor w.task = q.boundNames := by
    cases htask : w.task with
    | parameterDefault =>
      rw [htask] at hfull
      cases hfull
    | _ => rfl
  rw [← hnames]
  exact treats_visiting (mem_children_of_mem_roles hq) ⟨h.part hq hread hscope,
    IndexTask.isNamed_of_isFull hfull⟩

/-- Outside of parameters, a part that is a name is not taken for one. -/
theorem Stands.isParamName_of_bound (hrole : role ≠ .param) (hq : (.bound, q) ∈ p.form.roles role) :
    q.isParamName = false := by
  by_contra hname
  rcases h.role_of_isParamName hq (by simpa using hname) with hparam | ⟨-, hparam⟩
  · cases hparam
  · exact hrole hparam

/-- A part that is a name belongs to the scope around it. -/
theorem Stands.scope?_of_bound (hrole : role ≠ .param) (hq : (.bound, q) ∈ p.form.roles role)
    (hq' : q.Stands .bound s) : q.scope? = some s := by
  rw [hq'.sited.scope?_eq_enclosing? (h.isParamName_of_bound hrole hq), hq'.enclosing]

/-- A part that is a name is bound in the scope around it. -/
theorem Stands.treats_name {p' definition : Place} {kind : BindingKind} (hrole : role ≠ .param)
    (hkind : kind ≠ .namedExpr) (hq : (.bound, q) ∈ p.form.roles role)
    (hread : p.form.isUnreadPart q.number = false)
    (hscope : (if p.form.isScope && !p.form.isHeaderPart q.number then p else scope) = s) :
    p'.Treats (bindingEntry q definition kind s) q.boundNames := by
  have hq' := h.part hq hread hscope
  obtain ⟨id, hform, -⟩ := hq'.fits.exists_name
  rw [boundNames_of_fits hq'.fits hq'.read]
  exact treats_bindingEntry hform (by rw [if_neg hkind, h.scope?_of_bound hrole hq hq'])
    fun _ => h.isParamName_of_bound hrole hq

end Parts

end Place

end NameInference

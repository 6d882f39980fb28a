import NameInference.Inference.Query
import NameInference.Proofs.Inference.Ensures
import NameInference.Proofs.Value.Interning

/-!
# References lead downwards

Every way to make a value interns it after what it refers to, so a reference is always smaller than
the handle of the value that holds it. The searches along references are written here as plain
recursions, which are undefined where they do not end; downward references make each of them end,
with the answer of the bounded recursion of inference.
-/

namespace NameInference

open Arena

/-- All handles that a value holds. -/
def Value.references {ν : Type} : Value ν → List ValueId
  | module m => m.overlaid.ids
  | cls _ parent => [parent]
  | function _ parent owner => parent :: owner.toList
  | execution callee _ => [callee]
  | inst type _ display => type :: display.toList.map (·.2)
  | compiled .. => []
  | generic base parameters => base :: parameters.flatMap (·.ids)
  | wrapper _ wrapped extra _ _ => wrapped :: extra.toList

namespace Values

/-- The search for the context of a definition. -/
def parentSearch (values : Values) (id : ValueId) : Option (Option ValueId) :=
  match values.get? id with
  | some (.cls _ parent) | some (.function _ parent _) => some (some parent)
  | some (.execution function _) => some ((values.function? function).map (·.2.1))
  | some (.inst cls _ _) | some (.generic cls _) => values |>.parentSearch cls
  | some (.wrapper _ wrapped _ _ _) => values |>.parentSearch wrapped
  | _ => some none
partial_fixpoint

/-- The loop that goes to the outermost context. -/
def rootSearch (values : Values) (id : ValueId) : Option ValueId := do
  match ← values.parentSearch id with
  | none => some id
  | some parent => values |>.rootSearch parent
partial_fixpoint

/-- The loop that leaves the classes around. -/
def beyondSearch (values : Values) (id : ValueId) : Option ValueId := do
  if values.isClass id then
    match ← values.parentSearch id with
    | none => some id
    | some parent => values |>.beyondSearch parent
  else some id
partial_fixpoint

/-- The search for the definition of a class. -/
def classSearch (values : Values) (id : ValueId) : Option (Option Place) :=
  match values.get? id with
  | some (.cls node _) => some (some node)
  | some (.generic cls _) => values |>.classSearch cls
  | _ => some none
partial_fixpoint

/-- The search for the definition of a function. -/
def callableSearch (values : Values) (id : ValueId) : Option (Option Place) :=
  match values.get? id with
  | some (.function node _ _) => some (some node)
  | some (.execution function _) => some ((values.function? function).map (·.1))
  | some (.wrapper kind wrapped _ _ _) =>
    if kind == .typeVar then some none else values |>.callableSearch wrapped
  | _ => some none
partial_fixpoint

/-- The search for a name. -/
def nameSearch (values : Values) (id : ValueId) : Option Text :=
  match values.get? id with
  | none => some []
  | some (.module m) => some (m.names.getLast?.getD (pathStem m.path))
  | some (.cls node _) => some (node.definedName?.getD [])
  | some (.function ..) | some (.execution ..) => do
    let node := (← values.callableSearch id).filter (!·.isLambda)
    return (node.bind Place.definedName?).getD "<lambda>"
  | some (.inst cls _ _) | some (.generic cls _) => values |>.nameSearch cls
  | some (.compiled type _ _) => some type
  | some (.wrapper _ wrapped _ label _) =>
    if label.isEmpty then values |>.nameSearch wrapped else some label
partial_fixpoint

/-- The names of what is defined in a context with the given names. -/
def insideSearch (values : Values) (id outer : ValueId) (names : Option (List Text)) :
    Option (Option (List Text)) := do
  let name ← values.nameSearch id
  return if (values.execution? outer).isSome then none else names.map (· ++ [name])

/-- The search for qualified names. -/
def qualifiedSearch (values : Values) (id : ValueId) : Option (Option (List Text)) :=
  match values.get? id with
  | some (.module _) => some (some [])
  | some (.compiled _ _ isModule) => some (if isModule then some [] else none)
  | some (.cls _ parent) => do values.insideSearch id parent (← values |>.qualifiedSearch parent)
  | some (.function _ parent owner) => do
    values.insideSearch id (owner.getD parent) (← values |>.qualifiedSearch (owner.getD parent))
  | some (.generic cls _) => values |>.qualifiedSearch cls
  | some (.wrapper kind wrapped _ _ _) =>
    if kind == .typeVar then some none else values |>.qualifiedSearch wrapped
  | _ => some none
partial_fixpoint

/-- The text of one parameter of a generic class, from the names that the search finds. -/
def parameterSearch (values : Values) (set : ValueSet) : Option Text :=
  if set.isEmpty then some "?"
  else return Text.joined " | " (← set.ids.mapM values.nameSearch)

/-- The text of a generic class, from the names that the search finds. -/
def genericTextSearch (values : Values) (cls : ValueId) (parameters : List ValueSet) :
    Option Text := do
  let name ← values.nameSearch cls
  let shown ← parameters.mapM values.parameterSearch
  return name ++ "[" ++ Text.joined ", " shown ++ "]"

/-- The text that shows a value, from the names that the search finds. -/
def describeSearch (values : Values) (id : ValueId) : Option Text :=
  let shown (kind : String) (name : Text) : Text := Text.ofString ("<" ++ kind) ++ name ++ ">"
  match values.get? id with
  | none => some []
  | some (.module m) =>
    some (shown (if m.isDescriptor then "DescriptorModule: " else "Module: ")
      (if m.names.isEmpty then pathStem m.path else Text.dotted m.names))
  | some (.cls ..) => shown "Class: " <$> values.nameSearch id
  | some (.function ..) => shown "Function: " <$> values.nameSearch id
  | some (.execution ..) => shown "FunctionExecution: " <$> values.nameSearch id
  | some (.inst cls _ _) =>
    shown "Instance of " <$> match values.get? cls with
      | some (.generic cls parameters) => values.genericTextSearch cls parameters
      | _ => values.nameSearch cls
  | some (.compiled type text isModule) =>
    some (if isModule then shown "CompiledModule: " type else shown "" (type ++ ": " ++ text))
  | some (.generic cls parameters) =>
    shown "GenericClass: " <$> values.genericTextSearch cls parameters
  | some (.wrapper kind ..) => shown (kind.label ++ ": ") <$> values.nameSearch id

/-- Every reference is smaller than the handle of the value that holds it. -/
def Descending (values : Values) : Prop :=
  ∀ id value, values.get? id = some value → ∀ r ∈ value.references, r < id

variable {values : Values} {id parent : ValueId}

theorem descending_empty : Descending {} := by
  intro id value h
  simp [Arena.get?] at h

/-- A value whose references have handles is interned above them. -/
theorem Descending.intern (h : values.Descending) (value : Value Place)
    (hissued : ∀ r ∈ value.references, r < values.size) :
    Descending (Arena.intern (·.map Place.key) values value).2 := by
  cases hknown : values.find? (·.map Place.key) (value.map Place.key) with
  | some handle => rwa [intern_of_known hknown]
  | none =>
    rw [intern_of_new hknown]
    intro id found hget r hr
    rw [get?_push] at hget
    split at hget
    · next hid =>
      obtain rfl := Option.some.inj hget
      exact hid ▸ hissued r hr
    · exact h id found hget r hr

theorem get?_of_function? {node : Place} {owner : Option ValueId}
    (h : values.function? id = some (node, parent, owner)) :
    values.get? id = some (.function node parent owner) := by
  unfold function? at h
  split at h
  · next hget =>
    cases h
    exact hget
  · cases h

private theorem mapM_eq_some {α β : Type} {f : α → Option β} {g : α → β} (h : ∀ a, f a = some (g a))
    (list : List α) : list.mapM f = some (list.map g) := by
  rw [funext h]
  exact List.mapM_pure ..

namespace Descending

variable (h : values.Descending)

include h

theorem parent_lt (hparent : values.parent? id = some parent) :
    parent < id := by
  fun_induction values.parent? id with
  | case1 id node p hget | case2 id node p owner hget =>
    obtain rfl := Option.some.inj hparent
    exact h id _ hget p (by simp [Value.references])
  | case3 id callee arguments hget =>
    obtain ⟨⟨node, p, owner⟩, hcallee, rfl⟩ := Option.map_eq_some_iff.mp hparent
    have hlt : callee < id := h id _ hget callee (by simp [Value.references])
    exact Nat.lt_trans (h callee _ (get?_of_function? hcallee) p (by simp [Value.references])) hlt
  | case4 id cls arguments display hget hlt ih
  | case6 id cls parameters hget hlt ih
  | case8 id kind cls extra label node hget hlt ih => exact Nat.lt_trans (ih hparent) hlt
  | case5 | case7 | case9 | case10 => cases hparent

theorem parentSearch_eq (id : ValueId) : values.parentSearch id = some (values.parent? id) := by
  fun_induction values.parent? id with
  | case1 id node p hget | case2 id node p owner hget | case3 id callee arguments hget =>
    rw [parentSearch, hget]
  | case4 id cls arguments display hget hlt ih
  | case6 id cls parameters hget hlt ih
  | case8 id kind cls extra label node hget hlt ih =>
    rw [parentSearch, hget]
    exact ih
  | case5 id cls arguments display hget hlt
  | case7 id cls parameters hget hlt
  | case9 id kind cls extra label node hget hlt =>
    exact absurd (h id _ hget cls (by simp [Value.references])) hlt
  | case10 id =>
    rw [parentSearch]
    split <;> grind

theorem rootSearch_eq (id : ValueId) : values.rootSearch id = some (values.root id) := by
  fun_induction values.root id with
  | case1 id hparent =>
    rw [rootSearch, h.parentSearch_eq, hparent]
    rfl
  | case2 id p hparent hlt ih =>
    rw [rootSearch, h.parentSearch_eq, hparent]
    exact ih
  | case3 id p hparent hlt => exact absurd (h.parent_lt hparent) hlt

theorem beyondSearch_eq (id : ValueId) :
    values.beyondSearch id = some (values.beyondClasses id) := by
  fun_induction values.beyondClasses id with
  | case1 id hclass hparent =>
    rw [beyondSearch, if_pos hclass, h.parentSearch_eq, hparent]
    rfl
  | case2 id hclass p hparent hlt ih =>
    rw [beyondSearch, if_pos hclass, h.parentSearch_eq, hparent]
    exact ih
  | case3 id hclass p hparent hlt => exact absurd (h.parent_lt hparent) hlt
  | case4 id hclass => rw [beyondSearch, if_neg hclass]

theorem classSearch_eq (id : ValueId) : values.classSearch id = some (values.classNode? id) := by
  fun_induction values.classNode? id with
  | case1 id node p hget => rw [classSearch, hget]
  | case2 id cls parameters hget hlt ih =>
    rw [classSearch, hget]
    exact ih
  | case3 id cls parameters hget hlt =>
    exact absurd (h id _ hget cls (by simp [Value.references])) hlt
  | case4 id =>
    rw [classSearch]
    split <;> grind

theorem callableSearch_eq (id : ValueId) :
    values.callableSearch id = some (values.callableNode? id) := by
  fun_induction values.callableNode? id with
  | case1 id node p owner hget | case2 id callee arguments hget => rw [callableSearch, hget]
  | case3 id kind wrapped extra label node hget hkind =>
    rw [callableSearch, hget]
    exact if_pos hkind
  | case4 id kind wrapped extra label node hget hkind hlt ih =>
    rw [callableSearch, hget]
    exact (if_neg hkind).trans ih
  | case5 id kind wrapped extra label node hget hkind hlt =>
    exact absurd (h id _ hget wrapped (by simp [Value.references])) hlt
  | case6 id =>
    rw [callableSearch]
    split <;> grind

theorem nameSearch_eq (id : ValueId) : values.nameSearch id = some (values.name id) := by
  fun_induction values.name id with
  | case1 id hget | case2 id m hget | case3 id node p hget | case8 id type text isModule hget =>
    rw [nameSearch, hget]
  | case4 id node p owner hget | case5 id callee arguments hget =>
    rw [nameSearch, hget]
    simp only [h.callableSearch_eq, functionNode?]
    rfl
  | case6 id cls arguments display hget hlt ih | case9 id cls parameters hget hlt ih =>
    rw [nameSearch, hget]
    exact ih
  | case11 id kind wrapped extra label node hget hlabel hlt ih =>
    rw [nameSearch, hget]
    exact (if_pos hlabel).trans ih
  | case13 id kind wrapped extra label node hget hlabel =>
    rw [nameSearch, hget]
    exact if_neg hlabel
  | case7 id cls arguments display hget hlt
  | case10 id cls parameters hget hlt
  | case12 id kind cls extra label node hget hlabel hlt =>
    exact absurd (h id _ hget cls (by simp [Value.references])) hlt

theorem insideSearch_eq (outer : ValueId) (names : Option (List Text)) :
    values.insideSearch id outer names = some (qualifiedNames?.inside values id outer names) := by
  rw [insideSearch, h.nameSearch_eq]
  rfl

theorem qualifiedSearch_eq (id : ValueId) :
    values.qualifiedSearch id = some (values.qualifiedNames? id) := by
  fun_induction values.qualifiedNames? id with
  | case1 id m hget => rw [qualifiedSearch, hget]
  | case2 id type text hget =>
    rw [qualifiedSearch, hget]
    rfl
  | case3 id type text isModule hget hmodule =>
    rw [qualifiedSearch, hget]
    exact congrArg some (if_neg hmodule)
  | case4 id node p hget hlt ih =>
    rw [qualifiedSearch, hget]
    exact (congrArg (· >>= _) ih).trans (h.insideSearch_eq p _)
  | case6 id node p owner hget outer hlt ih =>
    rw [qualifiedSearch, hget]
    exact (congrArg (· >>= _) ih).trans (h.insideSearch_eq outer _)
  | case8 id cls parameters hget hlt ih =>
    rw [qualifiedSearch, hget]
    exact ih
  | case10 id kind wrapped extra label node hget hkind =>
    rw [qualifiedSearch, hget]
    exact if_pos hkind
  | case11 id kind wrapped extra label node hget hkind hlt ih =>
    rw [qualifiedSearch, hget]
    exact (if_neg hkind).trans ih
  | case5 id node cls hget hlt
  | case9 id cls parameters hget hlt
  | case12 id kind cls extra label node hget hkind hlt =>
    exact absurd (h id _ hget cls (by simp [Value.references])) hlt
  | case7 id node p owner hget outer hlt =>
    refine absurd (h id _ hget outer ?_) hlt
    cases owner <;> simp [Value.references, outer]
  | case13 id =>
    rw [qualifiedSearch]
    split <;> grind

theorem parameterSearch_eq (set : ValueSet) :
    values.parameterSearch set =
      some (if set.isEmpty then Text.ofString "?"
        else Text.joined (Text.ofString " | ") (set.ids.map values.name)) := by
  rw [parameterSearch, mapM_eq_some h.nameSearch_eq]
  split <;> rfl

theorem genericTextSearch_eq (cls : ValueId) (parameters : List ValueSet) :
    values.genericTextSearch cls parameters = some (values.genericText cls parameters) := by
  rw [genericTextSearch, h.nameSearch_eq, mapM_eq_some h.parameterSearch_eq]
  rfl

theorem describeSearch_eq (id : ValueId) :
    values.describeSearch id = some (values.describe id) := by
  unfold describeSearch describe
  cases values.get? id with
  | none => rfl
  | some value =>
    cases value with
    | module | compiled => rfl
    | cls | function | execution | wrapper =>
      simp only [h.nameSearch_eq]
      rfl
    | generic =>
      simp only [h.genericTextSearch_eq]
      rfl
    | inst cls =>
      simp only [h.nameSearch_eq, h.genericTextSearch_eq]
      rcases values.get? cls with _ | value
      · rfl
      · cases value <;> rfl

theorem beyondClasses_le (id : ValueId) : values.beyondClasses id ≤ id := by
  fun_induction values.beyondClasses id with
  | case1 | case4 => exact Nat.le_refl _
  | case2 id hclass p hparent hlt ih => exact Nat.le_trans ih (Nat.le_of_lt hlt)
  | case3 id hclass p hparent hlt => exact absurd (h.parent_lt hparent) hlt

end Descending

end Values

namespace Session

/-- The search for the scope of a value in its source. -/
def scopeSearch (s : Session) (id : ValueId) : Option (Option Place) :=
  match s.values.get? id with
  | some (.module m) => some ((m.tree.bind s.tree?).map (·.root))
  | some (.cls node _) => some (some node)
  | some (.function ..) | some (.execution ..) => s.values.callableSearch id
  | some (.generic cls _) => s |>.scopeSearch cls
  | _ => some none
partial_fixpoint

theorem scopeSearch_eq {s : Session} (h : s.values.Descending) (id : ValueId) :
    s.scopeSearch id = some (s.scopeNode? id) := by
  fun_induction s.scopeNode? id with
  | case1 id m hget | case2 id node p hget => rw [scopeSearch, hget]
  | case3 id node p owner hget | case4 id callee arguments hget =>
    rw [scopeSearch, hget]
    exact h.callableSearch_eq id
  | case5 id cls parameters hget hlt ih =>
    rw [scopeSearch, hget]
    exact ih
  | case6 id cls parameters hget hlt =>
    exact absurd (h id _ hget cls (by simp [Value.references])) hlt
  | case7 id =>
    rw [scopeSearch]
    split <;> grind

end Session

/-- A way to make a value. A lambda is made like a `def`. -/
inductive Making where
  | cls (node : Place) (parent : ValueId)
  | function (node : Place) (context : ValueId)
  | execution (callee : ValueId) (arguments : ArgumentsId)
  | anonymousExecution (callee : ValueId)
  | inst (type : ValueId) (arguments : ArgumentsId)
  | display (type : ValueId) (node : Place) (context : ValueId)
  | literal (type text : Text)
  | generic (base : ValueId) (parameters : List ValueSet)
  | wrapper (kind : WrapperKind) (wrapped : ValueId) (extra : Option ValueId) (label : Text)
    (node : Option Place)
  | module (module : ModuleValue)
  | compiledModule (name : Text) (members : Table ValueSet)

namespace Making

/-- The handles that a way to make a value is applied to. -/
def uses : Making → List ValueId
  | cls _ parent => [parent]
  | function _ context => [context]
  | execution callee _ | anonymousExecution callee => [callee]
  | inst type _ => [type]
  | display type _ context => [type, context]
  | literal .. | compiledModule .. => []
  | generic base parameters => base :: parameters.flatMap (·.ids)
  | wrapper _ wrapped extra _ _ => wrapped :: extra.toList
  | module m => m.overlaid.ids

/-- Makes the value. -/
def run : Making → Infer ValueId
  | cls node parent => Infer.makeClass node parent
  | function node context => Infer.makeFunction node context
  | execution callee arguments => Infer.makeExecution callee arguments
  | anonymousExecution callee => Infer.makeAnonymousExecution callee
  | inst type arguments => Infer.makeInstance type arguments
  | display type node context => Infer.makeDisplay type node context
  | literal type text => Infer.intern (.compiled type text false)
  | generic base parameters => Infer.makeGeneric base parameters
  | wrapper kind wrapped extra label node => Infer.makeWrapper kind wrapped extra label node
  | module m => modifyGet (Session.internModule m)
  | compiledModule name members => modifyGet (Session.registerCompiled name members)

end Making

namespace Session

variable {s t : Session}

theorem values_debug (message : Session → Text) (s : Session) :
    (s.debug message).values = s.values := by
  unfold debug
  split <;> rfl

theorem values_internModule (m : ModuleValue) (s : Session) :
    (s.internModule m).2.values = (s.intern (.module m)).2.values := by
  unfold internModule
  simp only
  split
  · rfl
  · split <;> exact values_debug ..

/-- Sessions whose values were all made one after the other, each from handles that were there. -/
inductive Made : Session → Prop
  | empty {s : Session} (h : s.values = {}) : Made s
  | step {s : Session} (h : Made s) (making : Making) (calls : Calls)
      (hissued : ∀ used ∈ making.uses, used < s.values.size) : Made (making.run calls s).2

end Session

namespace Making

variable {s : Session} {making : Making} {callee : ValueId}

/-- The handles in an execution by an unknown caller are there when it is made. -/
theorem descending_makeAnonymousExecution (h : s.values.Descending)
    (hcallee : callee < s.values.size) (calls : Calls) :
    (Infer.makeAnonymousExecution callee calls s).2.values.Descending := by
  rw [Infer.makeAnonymousExecution, Infer.bind_of_ok (a := s.values.function? callee) rfl]
  cases howner : (s.values.function? callee).bind (·.2.2) with
  | none => exact h.intern _ (by simpa [Value.references] using hcallee)
  | some owner =>
    obtain ⟨⟨node, parent, held⟩, hfunction, rfl⟩ := Option.bind_eq_some_iff.mp howner
    have hlt : owner < callee :=
      h callee _ (Values.get?_of_function? hfunction) owner (by simp [Value.references])
    have hinst := h.intern (.inst owner 0 none)
      (by simpa [Value.references] using Nat.lt_trans hlt hcallee)
    refine hinst.intern (.execution callee _) fun used hused => ?_
    obtain rfl : used = callee := by simpa [Value.references] using hused
    exact Nat.lt_of_lt_of_le hcallee (keeps_intern _ s.values _).size_le

/-- Whatever is made from handles that are there refers downwards. -/
theorem descending_run (h : s.values.Descending)
    (hissued : ∀ used ∈ making.uses, used < s.values.size) (calls : Calls) :
    (making.run calls s).2.values.Descending := by
  cases making with
  | cls | execution | inst | display | generic | wrapper =>
    exact h.intern _ (by simpa [uses, Value.references] using hissued)
  | literal | compiledModule => exact h.intern _ (by simp [Value.references])
  | function node context =>
    have hcontext : context < s.values.size := hissued context (by simp [uses])
    refine h.intern (.function node _ _) fun used hused => ?_
    simp only [Value.references, List.mem_cons, Option.mem_toList,
      Option.ite_none_right_eq_some] at hused
    rcases hused with rfl | ⟨-, hused⟩
    · exact Nat.lt_of_le_of_lt (h.beyondClasses_le context) hcontext
    · exact Option.some.inj hused ▸ hcontext
  | anonymousExecution callee =>
    exact descending_makeAnonymousExecution h (hissued callee (by simp [uses])) calls
  | module m =>
    change ((s.internModule m).2.values).Descending
    rw [Session.values_internModule]
    exact h.intern _ hissued

end Making

theorem Session.Made.descending {s : Session} (h : s.Made) : s.values.Descending := by
  induction h with
  | empty h => exact h ▸ Values.descending_empty
  | step _ making calls hissued ih => exact Making.descending_run ih hissued calls

/-- Every search along references ends at the handle, with the answer that inference takes for it.
-/
structure Session.SearchesEnd (s : Session) (id : ValueId) : Prop where
  parent : s.values.parentSearch id = some (s.values.parent? id)
  root : s.values.rootSearch id = some (s.values.root id)
  beyond : s.values.beyondSearch id = some (s.values.beyondClasses id)
  scope : s.scopeSearch id = some (s.scopeNode? id)
  cls : s.values.classSearch id = some (s.values.classNode? id)
  callable : s.values.callableSearch id = some (s.values.callableNode? id)
  name : s.values.nameSearch id = some (s.values.name id)
  qualified : s.values.qualifiedSearch id = some (s.values.qualifiedNames? id)
  describe : s.values.describeSearch id = some (s.values.describe id)

/-- References are well-founded. In every session that was made step by step from handles that were
there, each handle that a value holds is smaller than its own, and so every search along references
ends, on every handle. -/
theorem Session.Made.searches_end {s : Session} (h : s.Made) :
    (∀ id value, s.values.get? id = some value → ∀ r ∈ value.references, r < id) ∧
      ∀ id, s.SearchesEnd id := by
  have hdown := h.descending
  exact ⟨hdown, fun id =>
    { parent := hdown.parentSearch_eq id
      root := hdown.rootSearch_eq id
      beyond := hdown.beyondSearch_eq id
      scope := scopeSearch_eq hdown id
      cls := hdown.classSearch_eq id
      callable := hdown.callableSearch_eq id
      name := hdown.nameSearch_eq id
      qualified := hdown.qualifiedSearch_eq id
      describe := hdown.describeSearch_eq id }⟩

/-- An instance of a literal's type has the name that the search finds at the literal. -/
theorem Session.Made.searches_end_instance :
    let literal := (Making.literal "int" "1").run (engine 0) {}
    let made := (Making.inst 0 0).run (engine 0) literal.2
    made.2.values.size = 2 ∧ made.2.values.nameSearch 1 = some "int" := by
  intro literal made
  let value : Value Place := .compiled "int" "1" false
  have hliteral : literal.2.values = ({} : Values).push (Value.map Place.key) value := by
    change (Arena.intern (Value.map Place.key) {} value).2 = _
    rw [intern_of_new (find?_empty _ _)]
  have hmade : made.2.values.items = #[value, .inst 0 0 none] := by
    have hnew : Arena.find? (Value.map Place.key) literal.2.values (.inst 0 0 none) = none := by
      rw [hliteral, find?_push (find?_empty _ _), find?_empty]
      simp [value, Value.map]
    change (Arena.intern (Value.map Place.key) literal.2.values (.inst 0 0 none)).2.items = _
    rw [intern_of_new hnew, hliteral]
    rfl
  have hissued : ∀ used ∈ (Making.inst 0 0).uses, used < literal.2.values.size := by
    rw [hliteral]
    decide
  have hfirst : literal.2.Made :=
    .step (.empty rfl) (.literal _ _) (engine 0) (by simp [Making.uses])
  have hends := Session.Made.searches_end (.step hfirst (.inst 0 0) (engine 0) hissued)
  refine ⟨by rw [Arena.size, hmade]; rfl, (hends.2 1).name.trans ?_⟩
  change some (made.2.values.name 1) = _
  simp [Values.name, Arena.get?, hmade, value]

end NameInference

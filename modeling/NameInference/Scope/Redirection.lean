import NameInference.Scope.Enclosing

/-!
# Redirected names

A function can declare names `global` or `nonlocal`. Such a name is not the function's own: its
bindings count for the module, or for the nearest enclosing function, which may itself pass the name
on.
-/

namespace NameInference

namespace Node

/-- The names that a node declares: whether they are global, and their identifiers. -/
def declared : Form Node → List (Bool × Text)
  | .globalStmt names => names.filterMap fun n => n.id?.map (true, ·)
  | .nonlocalStmt names => names.filterMap fun n => n.id?.map (false, ·)
  | _ => []

/-- The blocks of a statement that run in its own scope. The handlers of a `try` come first. -/
def ownBlocks : Form Node → List Node
  | .ifStmt _ _ body orElse | .whileStmt _ body orElse | .forStmt _ _ _ body orElse =>
    body ++ orElse
  | .tryStmt body handlers orElse final => handlers ++ body ++ orElse ++ final
  | .handler _ _ body | .withStmt _ _ body => body
  | _ => []

theorem mem_children_of_mem_ownBlocks {n c : Node} (h : c ∈ ownBlocks n.form) : c ∈ n.children := by
  obtain ⟨span, usage, form⟩ := n
  cases form <;> (simp_all [children, Node.form, ownBlocks, Form.parts]; all_goals grind)

/-- The declarations of a statement and of the statements in its blocks, without nested definitions.
-/
def declarations (n : Node) : List (Bool × Text) :=
  declared n.form ++ (ownBlocks n.form).attach.flatMap fun ⟨c, _⟩ => declarations c
termination_by sizeOf n
decreasing_by exact sizeOf_lt_of_mem_children (mem_children_of_mem_ownBlocks ‹_›)

end Node

namespace Place

/-- The root of the tree. -/
def top (p : Place) : Place := p.ancestors.getLastD p

/-- Whether the place is a class definition. -/
def isClass (p : Place) : Bool :=
  match p.node.form with
  | .classDef .. => true
  | _ => false

/-- Whether the place is a function definition. -/
def isFunction (p : Place) : Bool :=
  match p.node.form with
  | .functionDef .. => true
  | _ => false

/-- Whether the place is a comprehension. -/
def isComprehension (p : Place) : Bool :=
  match p.node.form with
  | .comprehension .. => true
  | _ => false

/-- The first scope outside `p` that does not satisfy `skip`. -/
def scopeBeyond? (skip : Place → Bool) (p : Place) : Option Place :=
  match _h : p.scope? with
  | none => none
  | some s => if skip s then scopeBeyond? skip s else some s
termination_by p.depth
decreasing_by exact depth_scope? _h

theorem depth_scopeBeyond? {skip : Place → Bool} {p s : Place} (h : p.scopeBeyond? skip = some s) :
    s.depth < p.depth := by
  fun_induction scopeBeyond? skip p with
  | case1 => simp at h
  | case2 p q hq _ ih => exact Nat.lt_trans (ih h) (depth_scope? hq)
  | case3 p q hq _ =>
    cases h
    exact depth_scope? hq

/-- The function around a function, across classes. -/
def outerFunction? (p : Place) : Option Place :=
  (p.scopeBeyond? isClass).filter isFunction

theorem depth_outerFunction? {p s : Place} (h : p.outerFunction? = some s) : s.depth < p.depth :=
  depth_scopeBeyond? (Option.filter_eq_some_iff.1 h).1

/-- The statements of the body of a function. -/
def functionBody (p : Place) : List Node :=
  match p.node.form with
  | .functionDef _ _ _ _ _ _ body => body
  | _ => []

/-- Whether the last declaration of `id` in the function makes it global; `nonlocal` declares
nothing without a function around. -/
def declaredGlobal? (p : Place) (id : Text) : Option Bool :=
  let all := p.functionBody.flatMap Node.declarations
  ((all.filter fun (global, name) =>
    name == id && (global || p.outerFunction?.isSome)).getLast?).map (·.1)

/-- The scope that the bindings of `id` in the function `p` count for, if that is another one. -/
def redirect? (p : Place) (id : Text) : Option Place :=
  match p.declaredGlobal? id with
  | none => none
  | some true => some p.top
  | some false =>
    match _h : p.outerFunction? with
    | none => none
    | some outer => some ((redirect? outer id).getD outer)
termination_by p.depth
decreasing_by exact depth_outerFunction? _h

end Place

end NameInference

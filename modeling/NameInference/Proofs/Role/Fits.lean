import NameInference.Syntax.Cursor
import NameInference.Proofs.Span.Nested

/-!
# The roles of nodes

A node stands in its tree as a statement, an expression, a target, a parameter, an imported item, or
as a name that is bound or only declared. The form of a node says which roles its parts have, and a
tree fits if every node has a form and a use that suit its role. In a definition that fits, the
colon stands between header and body.
-/

namespace NameInference

variable {n : Node} {role : Role}

/-- What a node is to the node around it. -/
inductive Role where
  | statement | expression | target | param | item | bound | declared
  deriving DecidableEq

/-- The elements of a target are targets. -/
def Role.ofElement : Role → Role
  | .target => .target
  | _ => .expression

@[simp] theorem Role.ofElement_expression : Role.ofElement .expression = .expression := rfl

/-- The parts of a clause with their roles. -/
def Clause.roles {ν : Type} (c : Clause ν) : List (Role × ν) :=
  (.target, c.target) :: (.expression, c.iterable) :: c.conditions.map (.expression, ·)

namespace Form

variable {ν : Type}

/-- Statements, the handlers of a `try` and the managers of a `with`. A star import has no other
names. -/
def isStatement : Form ν → Bool
  | functionDef .. | classDef .. | returnStmt _ | assign .. | augAssign .. | exprStmt _ | ifStmt
    .. | whileStmt ..
  | forStmt .. | tryStmt .. | handler .. | withStmt .. | withItem
    .. | pass | breakStmt | continueStmt | raise ..
  | del _ | assert .. | importStmt _ | globalStmt _ | nonlocalStmt _ => true
  | importFrom _ _ star names => !star || names.isEmpty
  | _ => false

/-- Whether the form is a name. -/
def isName : Form ν → Bool
  | name _ => true
  | _ => false

/-- Expressions other than names and calls. -/
def isPlain : Form ν → Bool
  | name _ | call .. => false
  | form => form.isExpression

/-- The parts of a form with their roles. Only the elements of a tuple, a list or a star depend on
the role of the whole. -/
def roles (role : Role) : Form ν → List (Role × ν)
  | module body => body.map (.statement, ·)
  | functionDef _ _ decorators ident params returns body =>
    decorators.map (.expression, ·) ++ (.bound, ident) :: params.map (.param, ·) ++
      returns.toList.map (.expression, ·) ++ body.map (.statement, ·)
  | classDef _ decorators ident bases keywords body =>
    decorators.map (.expression, ·) ++ (.bound, ident) :: bases.map (.expression, ·)
      ++ keywords.map (fun k => (.expression, k.value)) ++ body.map (.statement, ·)
  | param _ ident hint default =>
    (.bound, ident) :: (hint.toList.map (.expression, ·) ++ default.toList.map (.expression, ·))
  | assign targets hint value =>
    targets.map (.target, ·) ++ hint.toList.map (.expression, ·) ++ value.toList.map
      (.expression, ·)
  | augAssign _ target value => [(.target, target), (.expression, value)]
  | ifStmt _ test body orElse | whileStmt test body orElse =>
    (.expression, test) :: body.map (.statement, ·) ++ orElse.map (.statement, ·)
  | forStmt _ target iterable body orElse =>
    (.target, target) :: (.expression, iterable) :: body.map (.statement, ·) ++
      orElse.map (.statement, ·)
  | tryStmt body handlers orElse final =>
    body.map (.statement, ·) ++ handlers.map (.statement, ·) ++ orElse.map (.statement, ·) ++
      final.map (.statement, ·)
  | handler type target body =>
    type.toList.map (.expression, ·) ++ target.toList.map (.bound, ·) ++ body.map (.statement, ·)
  | withStmt _ items body => items.map (.statement, ·) ++ body.map (.statement, ·)
  | withItem manager target => (.expression, manager) :: target.toList.map (.target, ·)
  | importStmt names | importFrom _ _ _ names => names.map (.item, ·)
  | importItem _ _ binding => [(.bound, binding)]
  | globalStmt names | nonlocalStmt names => names.map (.declared, ·)
  | tuple elements | list elements => elements.map (role.ofElement, ·)
  | starred value => [(role.ofElement, value)]
  | comprehension _ element value clauses =>
    (.expression, element) :: value.toList.map (.expression, ·) ++ clauses.flatMap Clause.roles
  | lambda params body => params.map (.param, ·) ++ [(.expression, body)]
  | named target value => [(.bound, target), (.expression, value)]
  | form => form.parts.map (.expression, ·)

/-- The parts in front of the body of a definition. -/
def header : Form ν → List ν
  | functionDef _ _ decorators ident params returns _ =>
    decorators ++ ident :: params ++ returns.toList
  | classDef _ decorators ident bases keywords _ =>
    decorators ++ ident :: bases ++ keywords.map (·.value)
  | _ => []

/-- The body of a definition. -/
def body : Form ν → List ν
  | functionDef _ _ _ _ _ _ body | classDef _ _ _ _ _ body => body
  | _ => []

/-- Where the header of a definition ends. -/
def colon? : Form ν → Option Position
  | functionDef _ colon .. | classDef colon .. => some colon
  | _ => none

theorem map_snd_roles (role : Role) (form : Form ν) :
    (form.roles role).map Prod.snd = form.parts := by
  have hclause (c : Clause ν) : c.roles.map Prod.snd = c.parts := by
    simp [Clause.roles, Clause.parts, Function.comp_def]
  cases form <;> simp [roles, parts, Function.comp_def, List.map_flatMap, hclause]

theorem colon?_of_isExpression {form : Form ν} (h : form.isExpression = true) :
    form.colon? = none := by
  cases form <;> first | rfl | cases h

theorem parts_of_colon? {form : Form ν} {colon : Position} (h : form.colon? = some colon) :
    form.parts = form.header ++ form.body := by
  cases form <;> first | rfl | cases h

/-- The block that the form must have. -/
def block? : Form ν → Option (List ν)
  | functionDef _ _ _ _ _ _ body | classDef _ _ _ _ _ body | ifStmt _ _ body _ | whileStmt _ body _
  | forStmt _ _ _ body _ | withStmt _ _ body | tryStmt body _ _ _ | handler _ _ body => some body
  | _ => none

theorem colon?_of_block? {form : Form ν} (h : form.block? = none) : form.colon? = none := by
  cases form <;> first | rfl | cases h

/-- Whether statements stand below the form. -/
def hasStatements : Form ν → Bool
  | module _ => true
  | form => form.block?.isSome

theorem hasStatements_of_block? {form : Form ν} {body : List ν} (h : form.block? = some body) :
    form.hasStatements = true := by
  cases form <;> first | rfl | cases h

theorem hasStatements_of_isExpression {form : Form ν} (h : form.isExpression = true) :
    form.hasStatements = false := by
  cases form <;> first | rfl | cases h

/-- Only a form with statements has a part that is one. -/
theorem hasStatements_of_mem_roles {form : Form ν} {part : ν}
    (h : (Role.statement, part) ∈ form.roles role) : form.hasStatements = true := by
  have helement : Role.statement ≠ role.ofElement := by cases role <;> decide
  cases form <;> first | rfl | simp [roles, Clause.roles, helement, helement.symm] at h

end Form

namespace Node

/-- The node and its decorators begin behind the position. -/
def Behind (n : Node) (p : Position) : Prop := p < n.start ∧ ∀ d ∈ n.form.decorators, p < d.start

theorem Since.behind {p q : Position} (h : n.Since p) (hq : q < p) : n.Behind q :=
  ⟨hq.trans_le h.1, fun d hd => hq.trans_le (h.2 d hd)⟩

end Node

/-- The colon stands between the header and the body. -/
def Form.Cleft (f : Form Node) : Prop :=
  ∀ colon ∈ f.colon?, (∀ n ∈ f.header, n.stop ≤ colon) ∧ ∀ n ∈ f.body, n.Behind colon

/-- A form and a use that suit a role. -/
inductive Role.Suits : Role → Usage → Form Node → Prop where
  | statement {usage : Usage} {form : Form Node} (kind : form.isStatement = true)
      (cleft : form.Cleft) : Suits .statement usage form
  | expression {usage : Usage} {form : Form Node} (kind : form.isExpression = true)
      (free : ∀ id, form = .name id → usage ≠ .store) : Suits .expression usage form
  | target {usage : Usage} {form : Form Node} (kind : form.isExpression = true)
      (bound : ∀ id, form = .name id → usage = .store) : Suits .target usage form
  | param {usage : Usage} (kind : ParamKind) (ident : Node) (hint default : Option Node) :
      Suits .param usage (.param kind ident hint default)
  | item {usage : Usage} (path : List Text) (hasAs : Bool) (binding : Node) :
      Suits .item usage (.importItem path hasAs binding)
  | bound (id : Text) : Suits .bound .store (.name id)
  | declared (id : Text) : Suits .declared .load (.name id)

/-- Only a statement has statements below it. -/
theorem Role.Suits.eq_statement {usage : Usage} {form : Form Node} (h : role.Suits usage form)
    (hform : form.hasStatements = true) : role = .statement := by
  cases h with
  | statement => rfl
  | expression kind _ | target kind _ =>
    rw [Form.hasStatements_of_isExpression kind] at hform
    cases hform
  | param | item | bound | declared => cases hform

namespace Node

/-- Every node of the tree suits its role. -/
inductive Fits : Role → Node → Prop where
  | mk {role : Role} {n : Node} (suits : role.Suits n.usage n.form)
      (part : ∀ x ∈ n.form.roles role, Fits x.1 x.2) : Fits role n

namespace Fits

variable {role : Role} {n : Node}

theorem suits (h : n.Fits role) : role.Suits n.usage n.form := by
  cases h
  assumption

theorem part (h : n.Fits role) : ∀ x ∈ n.form.roles role, x.2.Fits x.1 := by
  cases h
  assumption

theorem isStatement (h : n.Fits .statement) : n.form.isStatement = true := by
  obtain ⟨span, usage, form⟩ := n
  cases h.suits with
  | statement kind _ => exact kind

theorem isExpression (h : n.Fits .expression) : n.form.isExpression = true := by
  obtain ⟨span, usage, form⟩ := n
  cases h.suits with
  | expression kind _ => exact kind

theorem not_stored (h : n.Fits .expression) : ∀ id, n.form = .name id → n.usage ≠ .store := by
  obtain ⟨span, usage, form⟩ := n
  cases h.suits with
  | expression _ free => exact free

theorem isExpression_of_target (h : n.Fits .target) : n.form.isExpression = true := by
  obtain ⟨span, usage, form⟩ := n
  cases h.suits with
  | target kind _ => exact kind

theorem stored (h : n.Fits .target) : ∀ id, n.form = .name id → n.usage = .store := by
  obtain ⟨span, usage, form⟩ := n
  cases h.suits with
  | target _ bound => exact bound

theorem exists_param (h : n.Fits .param) :
    ∃ kind ident hint default, n.form = .param kind ident hint default := by
  obtain ⟨span, usage, form⟩ := n
  cases h.suits with
  | param kind ident hint default => exact ⟨kind, ident, hint, default, rfl⟩

theorem exists_item (h : n.Fits .item) :
    ∃ path hasAs binding, n.form = .importItem path hasAs binding := by
  obtain ⟨span, usage, form⟩ := n
  cases h.suits with
  | item path hasAs binding => exact ⟨path, hasAs, binding, rfl⟩

theorem exists_name (h : n.Fits .bound) : ∃ id, n.form = .name id ∧ n.usage = .store := by
  obtain ⟨span, usage, form⟩ := n
  cases h.suits with
  | bound id => exact ⟨id, rfl, rfl⟩

theorem exists_declared (h : n.Fits .declared) : ∃ id, n.form = .name id ∧ n.usage = .load := by
  obtain ⟨span, usage, form⟩ := n
  cases h.suits with
  | declared id => exact ⟨id, rfl, rfl⟩

end Fits

/-- An expression can be marked for a role that it passes on to its elements. -/
theorem Fits.marked {usage : Usage} (h : n.Fits .expression) (hrole : role.ofElement = role)
    (hsuits : ∀ form : Form Node, form.isExpression = true → role.Suits usage form) :
    (n.withUsage usage).Fits role := by
  generalize hexpression : Role.expression = found at h
  induction h with
  | @mk found n suits part ih =>
    subst hexpression
    obtain ⟨span, _, form⟩ := n
    cases suits with
    | expression kind free =>
      rw [withUsage]
      refine .mk (hsuits _ ?_) ?_
      · cases form <;> exact kind
      · unfold formWithUsage
        split
        · simpa [Node.form, Form.roles, allWithUsage_eq, hrole] using ih
        · simpa [Node.form, Form.roles, allWithUsage_eq, hrole] using ih
        · simpa [Node.form, Form.roles, hrole] using ih
        · next htuple hlist hstarred =>
          have hroles : form.roles role = form.roles .expression := by
            cases form <;> first | rfl | simp_all
          change ∀ x ∈ form.roles role, _
          rw [hroles]
          exact part

/-- Marking an expression as bound makes a target of it. -/
theorem Fits.bind (h : n.Fits .expression) : (n.withUsage .store).Fits .target :=
  h.marked rfl fun _ hkind => .target hkind fun _ _ => rfl

/-- Marking an expression as deleted binds nothing. -/
theorem Fits.delete (h : n.Fits .expression) : (n.withUsage .del).Fits .expression :=
  h.marked rfl fun _ hkind => .expression hkind fun _ _ => by decide

end Node

end NameInference

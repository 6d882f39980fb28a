import NameInference.Syntax.Place

/-!
# Enclosing scopes and flow statements

Which scope or flow statement governs a place. The header of a definition, which is what begins up
to its colon, belongs to the scope around it, except for the names of parameters; so do the defaults
of a lambda and the first iterable of a comprehension.
-/

namespace NameInference

/-- The parts of a flow statement. -/
inductive Branch where
  | header | body | orElse | handler | final
  deriving DecidableEq, Repr, Inhabited

/-- The name under which a branch is shown. -/
def Branch.label : Branch → String
  | .header => "header"
  | .body => "body"
  | .orElse => "else"
  | .handler => "except"
  | .final => "finally"

namespace Form

variable {ν : Type}

/-- The branch of a flow statement that holds the part with number `i`. -/
def branchOfPart (i : Nat) : Form ν → Branch
  | ifStmt _ _ body _ | whileStmt _ body _ =>
    if i < 1 then .header else if i < 1 + body.length then .body else .orElse
  | forStmt _ _ _ body _ =>
    if i < 2 then .header else if i < 2 + body.length then .body else .orElse
  | tryStmt body handlers orElse _ =>
    if i < body.length then .body
    else if i < body.length + handlers.length then .handler
    else if i < body.length + handlers.length + orElse.length then .orElse
    else .final
  | withStmt _ items _ => if i < items.length then .header else .body
  | _ => .header

/-- Whether what begins at `start` in the part with number `i` belongs to the scope around a scope.
Within a header this holds for all but the names of parameters. -/
def isOuterPart (i : Nat) (start : Position) (paramName : Bool) : Form ν → Bool
  | functionDef _ colon _ _ _ _ _ | classDef colon _ _ _ _ _ => start.upTo colon && !paramName
  | lambda params _ => i < params.length && !paramName
  | comprehension _ _ value clauses => !clauses.isEmpty && i == 1 + value.toList.length + 1
  | _ => false

/-- The test of an `if` is not governed by that `if`. -/
def isTestPart (i : Nat) : Form ν → Bool
  | ifStmt .. => i == 0
  | _ => false

end Form

namespace Place

/-- A parameter, or the name of one. -/
def isParamName (p : Place) : Bool :=
  match p.node.form, p.above with
  | .param .., _ => true
  | _, (0, parent) :: _ =>
    match parent.form with
    | .param .. => true
    | _ => false
  | _, _ => false

/-- The first ancestor along the way that governs a place: a scope, or, if `flows`, a flow
statement. -/
def governorAlong (tree : Nat) (start : Position) (paramName flows : Bool) :
    List (Nat × Node) → Option Place
  | [] => none
  | (i, n) :: rest =>
    if (n.form.isScope && !n.form.isOuterPart i start paramName) ||
        (flows && n.form.isFlow && !n.form.isTestPart i) then
      some ⟨tree, n, rest⟩
    else governorAlong tree start paramName flows rest

/-- The scope that the place belongs to; the root belongs to none. -/
def scope? (p : Place) : Option Place := governorAlong p.tree p.start p.isParamName false p.above

/-- The innermost scope or flow statement that governs the place. -/
def governor? (p : Place) : Option Place := governorAlong p.tree p.start p.isParamName true p.above

theorem depth_governorAlong {tree : Nat} {start : Position} {paramName flows : Bool}
    {above : List (Nat × Node)} {s : Place}
    (h : governorAlong tree start paramName flows above = some s) : s.depth < above.length := by
  induction above with
  | nil => simp [governorAlong] at h
  | cons step rest ih =>
    obtain ⟨i, n⟩ := step
    rw [governorAlong] at h
    split at h
    · cases h
      simp [depth]
    · have := ih h
      simp
      omega

/-- Scopes get less deep on the way out. -/
theorem depth_scope? {p s : Place} (h : p.scope? = some s) : s.depth < p.depth :=
  depth_governorAlong h

/-- The branch of `flow` that holds `p`; a place outside counts as in the header. -/
def branchOf (flow p : Place) : Branch :=
  match flow.childNumber? p with
  | some i => flow.node.form.branchOfPart i
  | none => .header

/-- The nearest flow statement strictly above. -/
def flow? (p : Place) : Option Place := p.ancestors.find? (·.node.form.isFlow)

end Place

end NameInference

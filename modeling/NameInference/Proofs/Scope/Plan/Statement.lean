import Mathlib.Data.List.Perm.Basic
import NameInference.Proofs.Scope.Plan.Expression

/-!
# The plans of statements

The header of a definition belongs to the scope around it and the body to the definition; all other
statements leave their parts in the scope they are in. So a visit finds the names that are bound
below its place, and binds each in the scope that the name belongs to.
-/

namespace NameInference

open List

variable {colon : Position}

namespace Form

variable {ν μ : Type}

theorem isStatement_number (f : Nat → ν → μ) (form : Form ν) :
    (form.number f).isStatement = form.isStatement := by
  cases form with
  | importFrom path level star names => cases names <;> simp [number, isStatement]
  | _ => rfl

/-- A definition with its body from the part `stop` on, in whose header the parts from `unread` on
are passed over. -/
structure Splits (form : Form ν) (unread stop : Nat) : Prop where
  isScope : form.isScope = true
  isUnreadPart : ∀ i, form.isUnreadPart i = (decide (unread ≤ i) && decide (i < stop))
  isHeaderPart : ∀ i, form.isHeaderPart i = decide (i < stop)
  le : unread ≤ stop

theorem splits_functionDef {isAsync : Bool} {decorators params body : List ν} {ident : ν}
    {returns : Option ν} : (functionDef isAsync colon decorators ident params returns body).Splits
      (decorators.length + 1 + params.length)
        (decorators.length + 1 + params.length + returns.toList.length) where
  isScope := rfl
  isUnreadPart _ := rfl
  isHeaderPart i := by simp [Form.isHeaderPart, header, Nat.add_assoc, Nat.add_comm 1]
  le := Nat.le_add_right _ _

theorem splits_classDef {decorators bases body : List ν} {ident : ν} {keywords : List (Keyword ν)} :
    (classDef colon decorators ident bases keywords body).Splits
      (decorators.length + 1 + bases.length)
      (decorators.length + 1 + bases.length + keywords.length) where
  isScope := rfl
  isUnreadPart _ := rfl
  isHeaderPart i := by simp [Form.isHeaderPart, header, Nat.add_assoc, Nat.add_comm 1]
  le := Nat.le_add_right _ _

end Form

namespace Place

variable {p q scope : Place} {v w : IndexVisit} {frame : Option MethodFrame}

section Statements

variable (h : p.Stands .statement scope)

include h

section Definitions

variable {unread stop : Nat} (hsplits : p.node.form.Splits unread stop)

include hsplits

/-- The first parts of the header are visited in the scope around. -/
theorem Stands.treats_header (w : IndexVisit) (k : Nat) (xs : List Node)
    (hle : k + xs.length ≤ unread) (hfull : w.task.isFull = true) (hscope : scope = w.scope)
    (hroles : ∀ q ∈ Form.numberList p.enter k xs, (w.task.role, q) ∈ p.form.roles .statement) :
    p.Treats ((Form.numberList p.enter k xs).flatMap (visiting w))
      ((Form.numberList p.enter k xs).flatMap boundNames) := by
  refine .flatMap fun q hq => ?_
  have hlt := (le_number_of_mem_numberList hq).2
  have hstop := hsplits.le
  refine h.treats_part hfull (hroles q hq) ?_ ?_
  · simp [form, hsplits.isUnreadPart]
    omega
  · have hheader : q.number < stop := by omega
    simp [form, hsplits.isHeaderPart, hheader, hscope]

/-- The body is visited in the scope of the definition. -/
theorem Stands.treats_body (frame : Option MethodFrame) (xs : List Node)
    (hroles : ∀ q ∈ Form.numberList p.enter stop xs, (.statement, q) ∈ p.form.roles .statement) :
    p.Treats ((Form.numberList p.enter stop xs).flatMap (visiting ⟨.statement, p, frame⟩))
      ((Form.numberList p.enter stop xs).flatMap boundNames) := by
  refine .flatMap fun q hq => ?_
  have hle := (le_number_of_mem_numberList hq).1
  refine h.treats_part rfl (hroles q hq) ?_ ?_
  · simp [form, hsplits.isUnreadPart]
    omega
  · simp [form, hsplits.isHeaderPart, hsplits.isScope]
    omega

/-- The name is bound in the scope around. -/
theorem Stands.treats_ident (kind : BindingKind) (hkind : kind ≠ .namedExpr)
    (hq : (.bound, q) ∈ p.form.roles .statement) (hlt : q.number < unread) :
    p.Treats (bindingEntry q p kind scope) q.boundNames := by
  have hstop := hsplits.le
  refine h.treats_name (by decide) hkind hq ?_ ?_
  · simp [form, hsplits.isUnreadPart]
    omega
  · have hheader : q.number < stop := by omega
    simp [form, hsplits.isHeaderPart, hheader]

end Definitions

theorem Stands.treats_functionDef {isAsync : Bool} {decorators params body : List Node}
    {ident : Node} {returns : Option Node}
    (hnode : p.node.form = .functionDef isAsync colon decorators ident params returns body) :
    p.Treats (p.planStatement scope frame) (p.form.parts.flatMap boundNames) := by
  obtain ⟨k, hk⟩ : ∃ k, k = decorators.length := ⟨_, rfl⟩
  obtain ⟨l, hl⟩ : ∃ l, l = k + 1 + params.length := ⟨_, rfl⟩
  have hform : p.form = .functionDef isAsync colon (Form.numberList p.enter 0 decorators)
    (p.enter k ident)
      (Form.numberList p.enter (k + 1) params) (Form.numberOption p.enter l returns)
      (Form.numberList p.enter (l + returns.toList.length) body) := by
    rw [form, hnode, hl, hk]
    rfl
  have hsplits : p.node.form.Splits l (l + returns.toList.length) := by
    rw [hnode, hl, hk]
    exact Form.splits_functionDef
  have hdecorators :=
    h.treats_header hsplits ⟨.expression, scope, none⟩ 0 decorators (by omega) rfl rfl
    (by simp +contextual [hform, Form.roles, IndexTask.role])
  have hname := h.treats_ident hsplits .functionDef (by decide) (q := p.enter k ident)
    (by simp [hform, Form.roles]) (by simp only [number_enter]; omega)
  have hparams : p.Treats
    ((Form.numberList p.enter (k + 1) params).flatMap (visiting ⟨.parameterDefault, scope, none⟩)
      ++ (Form.numberList p.enter (k + 1) params).flatMap (paramEntry p))
      ((Form.numberList p.enter (k + 1) params).flatMap boundNames) := by
    refine Treats.perm_steps (.flatMap fun q hq => ?_) (List.flatMap_append_perm _ _ _).symm
    have hlt := (le_number_of_mem_numberList hq).2
    refine h.treats_param (by simp [hform, Form.roles, hq]) ?_ ?_ hsplits.isScope
      (by simp [hnode, Form.isOuterPart])
    · simp [form, hsplits.isUnreadPart]
      omega
    · simp [form, hsplits.isHeaderPart]
      omega
  have hreturns := boundNames_of_isUnreadPart (p := p) l returns.toList fun i hle hlt => by
    simp [hsplits.isUnreadPart, hle, hlt]
  have hbody := h.treats_body hsplits (methodFrame? p scope (Form.numberList p.enter 0 decorators)
    (Form.numberList p.enter (k + 1) params)) body (by simp +contextual [hform, Form.roles])
  rw [planStatement, hform]
  simpa only [Form.parts, List.flatMap_append, List.flatMap_cons, Form.toList_numberOption,
    hreturns, List.nil_append,
    List.append_assoc] using ((hdecorators.append hname).append hparams).append hbody

theorem Stands.treats_classDef {decorators bases body : List Node} {ident : Node}
    {keywords : List (Keyword Node)}
    (hnode : p.node.form = .classDef colon decorators ident bases keywords body) :
    p.Treats (p.planStatement scope frame) (p.form.parts.flatMap boundNames) := by
  obtain ⟨k, hk⟩ : ∃ k, k = decorators.length := ⟨_, rfl⟩
  obtain ⟨l, hl⟩ : ∃ l, l = k + 1 + bases.length := ⟨_, rfl⟩
  have hform : p.form = .classDef colon (Form.numberList p.enter 0 decorators) (p.enter k ident)
      (Form.numberList p.enter (k + 1) bases) (Form.numberKeywords p.enter l keywords)
      (Form.numberList p.enter (l + keywords.length) body) := by
    rw [form, hnode, hl, hk]
    rfl
  have hsplits : p.node.form.Splits l (l + keywords.length) := by
    rw [hnode, hl, hk]
    exact Form.splits_classDef
  have hdecorators :=
    h.treats_header hsplits ⟨.expression, scope, none⟩ 0 decorators (by omega) rfl rfl
    (by simp +contextual [hform, Form.roles, IndexTask.role])
  have hbases := h.treats_header hsplits ⟨.expression, scope, none⟩ (k + 1) bases (by omega) rfl rfl
    (by simp +contextual [hform, Form.roles, IndexTask.role])
  have hname := h.treats_ident hsplits .classDef (by decide) (q := p.enter k ident)
    (by simp [hform, Form.roles]) (by simp only [number_enter]; omega)
  have hkeywords :=
      boundNames_of_isUnreadPart (p := p) l (keywords.map (·.value)) fun i hle hlt => by
    rw [List.length_map] at hlt
    simp [hsplits.isUnreadPart, hle, hlt]
  have hbody := h.treats_body hsplits none body (by simp +contextual [hform, Form.roles])
  rw [planStatement, hform]
  simp only [Form.parts, List.flatMap_append, List.flatMap_cons, Form.values_numberKeywords,
    hkeywords, List.nil_append, List.append_assoc]
  exact hdecorators.append
    ((hbases.append (hname.append hbody)).perm (List.perm_append_comm_assoc _ _ _))

/-- The hint of an assignment is passed over. -/
theorem Stands.treats_assign {targets : List Node} {hint value : Option Node}
    (hnode : p.node.form = .assign targets hint value) :
    p.Treats (p.planStatement scope frame) (p.form.parts.flatMap boundNames) := by
  obtain ⟨k, hk⟩ : ∃ k, k = targets.length := ⟨_, rfl⟩
  have hform : p.form = .assign (Form.numberList p.enter 0 targets)
    (Form.numberOption p.enter k hint)
      (Form.numberOption p.enter (k + hint.toList.length) value) := by
    rw [form, hnode, hk]
    rfl
  have hunread i : p.node.form.isUnreadPart i =
      (decide (k ≤ i) && decide (i < k + hint.toList.length)) := by
    rw [hnode, hk]
    rfl
  have hscope : p.form.isScope = false := by
    rw [hform]
    rfl
  have hhint := boundNames_of_isUnreadPart (p := p) k hint.toList fun i hle hlt => by
    simp [hunread, hle, hlt]
  have htargets (kind : BindingKind) (hkind : kind ≠ .namedExpr) :
      p.Treats ((Form.numberList p.enter 0 targets).flatMap
        (visiting ⟨.target p kind, scope, frame⟩))
        ((Form.numberList p.enter 0 targets).flatMap boundNames) := by
    refine .flatMap fun q hq => h.treats_part (by simpa [IndexTask.isFull] using hkind)
      (by simp [hform, Form.roles, IndexTask.role, hq]) ?_ (by simp [hscope])
    have hlt := (le_number_of_mem_numberList hq).2
    simp [form, hunread]
    omega
  have hvalue : p.Treats
      ((Form.numberList p.enter (k + hint.toList.length) value.toList).flatMap
        (visiting ⟨.expression, scope, none⟩))
      ((Form.numberList p.enter (k + hint.toList.length) value.toList).flatMap boundNames) := by
    refine .flatMap fun q hq => h.treats_part rfl ?_ ?_ (by simp [hscope])
    · rw [← Form.toList_numberOption, Option.mem_toList] at hq
      simp [hform, Form.roles, IndexTask.role, hq]
    · have hle := (le_number_of_mem_numberList hq).1
      simp [form, hunread]
      omega
  rw [planStatement, hform]
  simp only [Form.parts, List.flatMap_append, Form.toList_numberOption, hhint, List.append_nil]
  refine (hvalue.append (htargets _ ?_)).perm List.perm_append_comm
  split <;> decide

omit h in
/-- An imported item binds its name. -/
theorem Stands.treats_item {p' : Place} {kind : BindingKind} (h : q.Stands .item scope)
    (hkind : kind ≠ .namedExpr) :
    p'.Treats (itemEntry kind scope q) q.boundNames := by
  obtain ⟨path, hasAs, binding, hnode⟩ := h.fits.exists_item
  have hform : q.form = .importItem path hasAs (q.enter 0 binding) := by
    rw [form, hnode]
    rfl
  have hbinding : p'.Treats (bindingEntry (q.enter 0 binding) q kind scope)
    (q.enter 0 binding).boundNames :=
    h.treats_name (by decide) hkind (by simp [hform, Form.roles])
      (by simp [hform, Form.isUnreadPart]) (by simp [hform, Form.isScope])
  rw [itemEntry, boundNames_eq_flatMap (by simp [hnode]), hform]
  simpa [Form.parts] using hbinding

omit h in
/-- A declared name is not bound. -/
theorem Stands.boundNames_declared (h : q.Stands .declared scope) : q.boundNames = [] := by
  obtain ⟨id, hnode, husage⟩ := h.fits.exists_declared
  rw [boundNames_eq_flatMap (by simp [husage]), form, hnode]
  rfl

section Plain

variable (hplain : p.form.Plain)

include hplain

theorem Stands.treats_expr (q : Place) (hq : (.expression, q) ∈ p.form.roles .statement) :
    p.Treats (visiting ⟨.expression, scope, none⟩ q) q.boundNames :=
      h.treats_plain hplain rfl rfl hq

theorem Stands.treats_exprs (qs : List Place)
    (hqs : ∀ q ∈ qs, (.expression, q) ∈ p.form.roles .statement) :
    p.Treats (qs.flatMap (visiting ⟨.expression, scope, none⟩)) (qs.flatMap boundNames) :=
  .flatMap fun q hq => h.treats_expr hplain q (hqs q hq)

theorem Stands.treats_block (frame : Option MethodFrame) (qs : List Place)
    (hqs : ∀ q ∈ qs, (.statement, q) ∈ p.form.roles .statement) :
    p.Treats (qs.flatMap (visiting ⟨.statement, scope, frame⟩)) (qs.flatMap boundNames) :=
  .flatMap fun q hq => h.treats_plain hplain rfl rfl (hqs q hq)

theorem Stands.treats_bound (frame : Option MethodFrame) (kind : BindingKind)
    (hkind : kind ≠ .namedExpr) (q : Place) (hq : (.target, q) ∈ p.form.roles .statement) :
    p.Treats (visiting ⟨.target p kind, scope, frame⟩ q) q.boundNames :=
  h.treats_plain hplain (by simpa [IndexTask.isFull] using hkind) rfl hq

theorem Stands.treats_items (kind : BindingKind) (hkind : kind ≠ .namedExpr) (qs : List Place)
    (hqs : ∀ q ∈ qs, (.item, q) ∈ p.form.roles .statement) :
    p.Treats (qs.flatMap (itemEntry kind scope)) (qs.flatMap boundNames) :=
  .flatMap fun q hq => (h.part_of_plain hplain (hqs q hq)).treats_item hkind

theorem Stands.boundNames_declarations (qs : List Place)
    (hqs : ∀ q ∈ qs, (.declared, q) ∈ p.form.roles .statement) :
    qs.flatMap boundNames = [] := by
  rw [List.flatMap_eq_nil_iff]
  exact fun q hq => (h.part_of_plain hplain (hqs q hq)).boundNames_declared

/-- The blocks and headers of a flow statement, the parts of handlers and managers. -/
theorem Stands.treats_flow (hflow : p.form.isFlow = true) :
    p.Treats (p.planStatement scope frame) (p.form.parts.flatMap boundNames) := by
  have hexpr := h.treats_expr hplain
  have hblock := h.treats_block hplain frame
  have htarget := h.treats_bound hplain frame .forTarget (by decide)
  rw [planStatement]
  generalize p.form = form at *
  cases form with
  | ifStmt isElif test body orElse | whileStmt test body orElse =>
    have htest := hexpr test (by simp [Form.roles])
    have hbody := hblock body (by simp +contextual [Form.roles])
    have horElse := hblock orElse (by simp +contextual [Form.roles])
    simp only [Form.parts, List.flatMap_append, List.flatMap_cons]
    exact (htest.append hbody).append horElse
  | forStmt isAsync target iterable body orElse =>
    have hiterable := hexpr iterable (by simp [Form.roles])
    have htarget := htarget target (by simp [Form.roles])
    have hbody := hblock body (by simp +contextual [Form.roles])
    have horElse := hblock orElse (by simp +contextual [Form.roles])
    simp only [Form.parts, List.flatMap_append, List.flatMap_cons, List.append_assoc]
    refine (hiterable.append (htarget.append (hbody.append horElse))).perm ?_
    exact List.perm_append_comm_assoc _ _ _
  | tryStmt body handlers orElse final =>
    have hbody := hblock body (by simp +contextual [Form.roles])
    have hhandlers := hblock handlers (by simp +contextual [Form.roles])
    have horElse := hblock orElse (by simp +contextual [Form.roles])
    have hfinal := hblock final (by simp +contextual [Form.roles])
    simp only [Form.parts, List.flatMap_append]
    exact ((hbody.append hhandlers).append horElse).append hfinal
  | withStmt isAsync items body =>
    have hitems := hblock items (by simp +contextual [Form.roles])
    have hbody := hblock body (by simp +contextual [Form.roles])
    simp only [Form.parts, List.flatMap_append]
    exact hitems.append hbody
  | _ => cases hflow

/-- The other statements. -/
theorem Stands.treats_simple (hkind : p.form.isStatement = true) (hflow : p.form.isFlow = false)
    (hassign : ∀ targets hint value, p.form ≠ .assign targets hint value) :
    p.Treats (p.planStatement scope frame) (p.form.parts.flatMap boundNames) := by
  have hexpr := h.treats_expr hplain
  have hexprs := h.treats_exprs hplain
  have hblock := h.treats_block hplain frame
  have hbound := h.treats_bound hplain frame
  have hname {q : Place} (hq : (.bound, q) ∈ p.form.roles .statement) :
      p.Treats (bindingEntry q p .exceptTarget scope) q.boundNames :=
    h.treats_name (by decide) (by decide) hq (hplain.2 _) (by simp [hplain.1])
  have hitems := h.treats_items hplain
  have hdeclared := h.boundNames_declarations hplain
  rw [planStatement]
  generalize p.form = form at *
  cases form with
  | functionDef | classDef => cases hplain.1
  | ifStmt | whileStmt | forStmt | tryStmt | withStmt => cases hflow
  | assign targets hint value => exact absurd rfl (hassign targets hint value)
  | augAssign op target value =>
    have htarget := hbound .augmentedAssignment (by decide) target (by simp [Form.roles])
    have hvalue := hexpr value (by simp [Form.roles])
    simp only [Form.parts, List.flatMap_cons, List.flatMap_nil, List.append_nil]
    exact (hvalue.append htarget).perm List.perm_append_comm
  | handler type target body =>
    have htype := hexprs type.toList (by simp +contextual [Form.roles])
    have htarget : p.Treats (target.toList.flatMap (bindingEntry · p .exceptTarget scope))
        (target.toList.flatMap boundNames) :=
      .flatMap fun q hq => hname (by simp [Form.roles, Option.mem_toList.mp hq])
    have hbody := hblock body (by simp +contextual [Form.roles])
    simp only [Form.parts, List.flatMap_append]
    exact (htype.append htarget).append hbody
  | withItem manager target =>
    have hmanager := hexpr manager (by simp [Form.roles])
    have htarget : p.Treats (target.toList.flatMap (visiting ⟨.target p .withTarget, scope, frame⟩))
        (target.toList.flatMap boundNames) :=
      .flatMap fun q hq =>
        hbound .withTarget (by decide) q (by simp [Form.roles, Option.mem_toList.mp hq])
    simp only [Form.parts, List.flatMap_cons]
    exact hmanager.append htarget
  | importStmt names =>
    exact hitems .importName (by decide) names (by simp +contextual [Form.roles])
  | importFrom path level star names =>
    cases star with
    | true =>
      obtain rfl : names = [] := by simpa [Form.isStatement] using hkind
      exact .of_adds (by simp [IndexEntry.name?])
    | false => exact hitems .importFrom (by decide) names (by simp +contextual [Form.roles])
  | globalStmt names | nonlocalStmt names =>
    simp only [Form.parts, hdeclared names (by simp +contextual [Form.roles])]
    exact .nil
  | returnStmt | exprStmt | raise | del | assert | pass | breakStmt | continueStmt =>
    exact hexprs _ (by simp +contextual [Form.roles, Form.parts])
  | _ => cases hkind

end Plain

theorem Stands.treats_statement : p.Treats (p.planStatement scope frame) p.boundNames := by
  have hkind := h.fits.isStatement
  rw [boundNames_eq_flatMap fun id hid => by rw [hid] at hkind; cases hkind]
  cases hnode : p.node.form with
  | functionDef => exact h.treats_functionDef hnode
  | classDef => exact h.treats_classDef hnode
  | assign => exact h.treats_assign hnode
  | ifStmt | whileStmt | forStmt | tryStmt | withStmt =>
    refine h.treats_flow ?_ ?_ <;> rw [form, hnode]
    · exact ⟨rfl, fun _ => rfl⟩
    · rfl
  | module | param | lambda | comprehension =>
    rw [hnode] at hkind
    cases hkind
  | _ =>
    refine h.treats_simple ?_ (Form.isStatement_number p.enter _ ▸ hkind) ?_ ?_ <;> rw [form, hnode]
    · exact ⟨rfl, fun _ => rfl⟩
    · rfl
    · simp [Form.number]

end Statements

/-- The default of a parameter is an expression. -/
theorem Stands.treats_default (h : p.Stands .param scope) :
    p.Treats (p.plan ⟨.parameterDefault, scope, frame⟩) (p.namesFor .parameterDefault) := by
  obtain ⟨kind, ident, hint, default, hnode⟩ := h.fits.exists_param
  have hform := form_of_param hnode
  rw [plan, namesFor, hform]
  refine .flatMap fun q hq => h.treats_part rfl ?_ ?_ (by simp [hform, Form.isScope])
  · simp [hform, Form.roles, IndexTask.role, Option.mem_toList.mp hq]
  · rw [Form.toList_numberOption] at hq
    have hle := (le_number_of_mem_numberList hq).1
    simp [hform, Form.isUnreadPart, Form.toList_numberOption]
    omega

/-- A visit finds what its task is for. -/
theorem Visited.treats (h : p.Visited v) : p.Treats (p.plan v) (p.namesFor v.task) := by
  obtain ⟨task, scope, frame⟩ := v
  obtain ⟨hstands, hnamed⟩ := h
  cases task with
  | statement => exact hstands.treats_statement
  | expression =>
    rw [namesFor, hstands.boundNames_expression]
    · exact hstands.treats_expression
    · simp
  | target definition kind =>
    exact hstands.treats_target (by simpa [IndexTask.isNamed] using hnamed)
  | parameterDefault => exact hstands.treats_default

/-- The entries of a visit bind the names that its task is for, each in its scope. -/
theorem Visited.entries (h : p.Visited v) :
    (∀ b, .binding b ∈ p.entriesOf v → b.Owned) ∧
      (p.entriesOf v).filterMap IndexEntry.name? ~ p.namesFor v.task := by
  induction p, v using entriesOf.induct with
  | case1 p v ih =>
    have htreats := h.treats
    have hchild {i : Nat} {w : IndexVisit} (hw : .visit i w ∈ p.plan v) :
        ∃ hi : i < p.children.length, p.children[i].Visited w := by
      obtain ⟨q, hq, hvisited⟩ := htreats.visited i w hw
      obtain ⟨hi, rfl⟩ := List.getElem?_eq_some_iff.mp hq
      exact ⟨hi, hvisited⟩
    rw [entriesOf]
    constructor
    · intro b hb
      obtain ⟨step, hstep, hb⟩ := List.mem_flatMap.mp hb
      cases step with
      | add entry =>
        cases List.mem_singleton.mp hb
        exact htreats.owned b hstep
      | visit i w =>
        obtain ⟨hi, hvisited⟩ := hchild hstep
        simp only [dif_pos hi] at hb
        exact (ih i w hi hvisited).1 b hb
    · rw [List.filterMap_flatMap]
      refine (List.Perm.flatMap_left _ fun step hstep => ?_).trans htreats.names
      cases step with
      | add entry => cases entry <;> exact .refl _
      | visit i w =>
        obtain ⟨hi, hvisited⟩ := hchild hstep
        simpa [stepNames, hi] using (ih i w hi hvisited).2

end Place

end NameInference

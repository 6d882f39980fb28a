import NameInference.Proofs.Scope.Visits

/-!
# The plans of expressions and targets

A plan deals with each part of its place once: it visits the part for its role in the scope around
the part, binds the name that the part consists of, or passes over it. Here are the parts of
expressions, where a comprehension leaves its first iterable and `:=` its target to a scope outside,
and the parts of targets.
-/

namespace NameInference

open List

variable {kind : BindingKind}

namespace Form

variable {ν μ : Type}

/-- All parts belong to the scope around the form and are read. -/
def Plain (form : Form ν) : Prop := form.isScope = false ∧ ∀ i, form.isUnreadPart i = false

theorem plain_of_isExpression {form : Form ν} (h : form.isExpression = true)
    (hscope : form.isScope = false) :
    form.Plain := by
  refine ⟨hscope, fun i => ?_⟩
  cases form <;> first | rfl | cases h

theorem isExpression_number (f : Nat → ν → μ) (form : Form ν) :
    (form.number f).isExpression = form.isExpression := by
  cases form <;> rfl

/-- Outside of lambdas, comprehensions and `:=`, the parts of an expression are expressions. -/
theorem eq_expression_of_mem_roles {form : Form ν} (h : form.isExpression = true)
    (hscope : form.isScope = false) (hnamed : ∀ target value, form ≠ .named target value) :
    ∀ x ∈ form.roles .expression, x.1 = .expression := by
  cases form <;> simp_all [roles, isExpression, isScope]

end Form

namespace Place

variable {p q scope : Place} {role : Role} {v w : IndexVisit}

theorem Treats.perm_steps {steps steps' : List IndexStep} {names : List Place}
    (h : p.Treats steps names) (hperm : steps ~ steps') : p.Treats steps' names :=
  ⟨fun i w hw => h.visited i w (hperm.mem_iff.mpr hw), fun b hb => h.owned b (hperm.mem_iff.mpr hb),
    (hperm.symm.flatMap_right _).trans h.names⟩

theorem Stands.treats_plain (h : p.Stands role scope) (hplain : p.form.Plain)
    (hfull : w.task.isFull = true) (hscope : scope = w.scope)
    (hq : (w.task.role, q) ∈ p.form.roles role) :
    p.Treats (visiting w q) q.boundNames :=
  h.treats_part hfull hq (hplain.2 _) (by simp [hplain.1, hscope])

theorem Stands.part_of_plain {r : Role} (h : p.Stands role scope) (hplain : p.form.Plain)
    (hq : (r, q) ∈ p.form.roles role) : q.Stands r scope :=
  h.part hq (hplain.2 _) (by simp [hplain.1])

theorem isBound_eq_false (h : ∀ id, p.node.form = .name id → p.node.usage ≠ .store) :
    p.isBound = false := by
  cases hform : p.node.form with
  | name id => simp [isBound, h id hform]
  | _ => simp [isBound, id?, Node.id?, hform]

/-- Where no name stands, the bound names are those of the parts. -/
theorem boundNames_eq_flatMap (h : ∀ id, p.node.form = .name id → p.node.usage ≠ .store) :
    p.boundNames = p.form.parts.flatMap boundNames := by
  rw [parts_form]
  exact boundNames_of_not_isBound (isBound_eq_false h)

theorem le_number_of_mem_numberList {k : Nat} {xs : List Node}
    (hq : q ∈ Form.numberList p.enter k xs) :
    k ≤ q.number ∧ q.number < k + xs.length := by
  obtain ⟨i, n, hn, rfl⟩ := Form.mem_numberList hq
  have hi := (List.getElem?_eq_some_iff.mp hn).1
  simp only [number_enter]
  omega

theorem boundNames_of_isUnreadPart (k : Nat) (xs : List Node)
    (hunread : ∀ i, k ≤ i → i < k + xs.length → p.node.form.isUnreadPart i = true) :
    (Form.numberList p.enter k xs).flatMap boundNames = [] := by
  rw [List.flatMap_eq_nil_iff]
  intro q hq
  obtain ⟨hle, hlt⟩ := le_number_of_mem_numberList hq
  obtain ⟨i, n, -, rfl⟩ := Form.mem_numberList hq
  have hpart := hunread _ hle hlt
  rw [number_enter] at hpart
  exact boundNames_of_isUnread (by simp [hpart])

theorem form_of_param {kind : ParamKind} {ident : Node} {hint default : Option Node}
    (hnode : q.node.form = .param kind ident hint default) :
    q.form = .param kind (q.enter 0 ident) (Form.numberOption q.enter 1 hint)
      (Form.numberOption q.enter (1 + hint.toList.length) default) := by
  rw [form, hnode]
  rfl

/-- The names of a parameter are its own name and those of its default. -/
theorem Stands.boundNames_param (h : q.Stands .param scope) :
    ∃ kind ident hint default, q.node.form = .param kind ident hint default ∧ ident.Fits .bound ∧
      q.boundNames = q.enter 0 ident :: q.namesFor .parameterDefault := by
  obtain ⟨kind, ident, hint, default, hnode⟩ := h.fits.exists_param
  have hform := form_of_param hnode
  have hname : (q.enter 0 ident).Stands .bound scope :=
    h.part (by simp [hform, Form.roles]) (by simp [hform, Form.isUnreadPart])
      (by simp [hform, Form.isScope])
  have hhint := boundNames_of_isUnreadPart (p := q) 1 hint.toList fun i hle hlt => by
    simp [hnode, Form.isUnreadPart, hle, hlt]
  refine ⟨kind, ident, hint, default, hnode, hname.fits, ?_⟩
  rw [boundNames_eq_flatMap (by simp [hnode]), namesFor, hform]
  simp [Form.parts, Form.toList_numberOption, hhint, boundNames_of_fits hname.fits hname.read]

/-- The name of a parameter belongs to the scope that the parameter is a part of. -/
theorem scope?_of_param {i : Nat} {n ident : Node} {kind : ParamKind} {hint default : Option Node}
    (hform : n.form = .param kind ident hint default) (hident : ident.Fits .bound)
    (hscope : p.node.form.isScope = true)
    (hinner : ∀ start, p.node.form.isOuterPart i start true = false) :
    ((p.enter i n).enter 0 ident).scope? = some p := by
  have hname : ((p.enter i n).enter 0 ident).isParamName = true := by
    obtain ⟨id, hid, -⟩ := hident.exists_name
    simp [isParamName, enter, hform, hid]
  have hparam : n.form.isScope = false := by
    rw [hform]
    rfl
  rw [scope?, hname]
  simp [enter, governorAlong, hparam, hscope, hinner]

/-- A parameter is visited for its default, in the scope around, and its name is bound in the scope
itself. -/
theorem Stands.treats_param (h : p.Stands role scope) (hq : (.param, q) ∈ p.form.roles role)
    (hread : p.form.isUnreadPart q.number = false) (hheader : p.form.isHeaderPart q.number = true)
    (hscope : p.node.form.isScope = true)
    (hinner : ∀ start, p.node.form.isOuterPart q.number start true = false) :
    p.Treats (visiting ⟨.parameterDefault, scope, none⟩ q ++ paramEntry p q) q.boundNames := by
  have hstands : q.Stands .param scope := h.part hq hread (by simp [hheader])
  obtain ⟨kind, ident, hint, default, hform, hident, hnames⟩ := hstands.boundNames_param
  have howner : (q.enter 0 ident).scope? = some p := by
    obtain ⟨n, -, henter⟩ := exists_enter_of_mem_roles hq
    rw [henter] at hform ⊢
    exact scope?_of_param hform hident hscope hinner
  have hdefault :=
    treats_visiting (mem_children_of_mem_roles hq) (w := ⟨.parameterDefault, scope, none⟩)
      ⟨hstands, rfl⟩
  have hentry : p.Treats (paramEntry p q) [q.enter 0 ident] := by
    obtain ⟨id, hid, -⟩ := hident.exists_name
    rw [paramEntry, Place.form, hform]
    exact treats_bindingEntry hid howner fun hkind => absurd rfl hkind
  refine (hdefault.append hentry).perm ?_
  rw [hnames]
  exact List.perm_append_comm

/-- The first iterable is the second part of the first clause. -/
theorem number_iterable (k : Nat) (clauses : List (Clause Node)) :
    (∀ c ∈ (Form.numberClauses p.enter k clauses).head?, c.iterable.number = k + 1) ∧
      (∀ c ∈ (Form.numberClauses p.enter k clauses).tail, c.iterable.number ≠ k + 1) ∧
      ∀ c ∈ Form.numberClauses p.enter k clauses, c.target.number ≠ k + 1 ∧
      ∀ q ∈ c.conditions, q.number ≠ k + 1 := by
  cases clauses with
  | nil => simp [Form.numberClauses]
  | cons d rest =>
    have hrest : ∀ c ∈ Form.numberClauses p.enter (k + d.parts.length) rest, ∀ q ∈ c.parts,
        q.number ≠ k + 1 := by
      intro c hc q hq
      have hmem := List.mem_flatMap.mpr ⟨c, hc, hq⟩
      rw [Form.parts_numberClauses] at hmem
      have hle := (le_number_of_mem_numberList hmem).1
      simp only [Clause.parts, List.length_cons] at hle
      omega
    simp only [Form.numberClauses, List.head?_cons, List.tail_cons, Option.mem_some_iff, forall_eq',
      number_enter, List.forall_mem_cons]
    refine ⟨trivial, fun c hc => hrest c hc _ (by simp [Clause.parts]), ⟨by omega, fun q hq => ?_⟩,
        fun c hc =>
      ⟨hrest c hc _ (by simp [Clause.parts]), fun q hq =>
        hrest c hc q (by simp [Clause.parts, hq])⟩⟩
    have hle := (le_number_of_mem_numberList hq).1
    omega

section Expressions

variable (h : p.Stands .expression scope)

include h

theorem Stands.treats_lambda {params : List Node} {body : Node}
    (hnode : p.node.form = .lambda params body) :
    p.Treats (p.planExpression scope) (p.form.parts.flatMap boundNames) := by
  have hform : p.form = .lambda (Form.numberList p.enter 0 params)
      (p.enter params.length body) := by
    rw [form, hnode]
    rfl
  rw [planExpression, hform]
  simp only [Form.parts, List.flatMap_append, List.flatMap_singleton]
  refine .append (.flatMap fun q hq => ?_) ?_
  · have hlt := (le_number_of_mem_numberList hq).2
    refine h.treats_param ?_ ?_ ?_ ?_ ?_
    · simp [hform, Form.roles, hq]
    · simp [hform, Form.isUnreadPart]
    · simp [hform, Form.isHeaderPart]
      omega
    · simp [hnode, Form.isScope]
    · simp [hnode, Form.isOuterPart]
  · refine h.treats_part rfl ?_ ?_ ?_
    · simp [hform, Form.roles, IndexTask.role]
    · simp [hform, Form.isUnreadPart]
    · simp [hform, Form.isHeaderPart, Form.isScope]

omit h in
/-- The clauses of a comprehension, given what is made of their parts. -/
theorem treats_planClauses {outer : Place} {clauses : List (Clause Place)}
    (hfirst : ∀ c ∈ clauses.head?, p.Treats (visiting ⟨.expression, outer, none⟩ c.iterable)
      c.iterable.boundNames)
    (hiterable : ∀ c ∈ clauses.tail, p.Treats (visiting ⟨.expression, p, none⟩ c.iterable)
      c.iterable.boundNames) (htarget : ∀ c ∈ clauses,
      p.Treats (visiting ⟨.target p .comprehensionTarget, p, none⟩ c.target) c.target.boundNames)
    (hcondition : ∀ c ∈ clauses, ∀ q ∈ c.conditions, p.Treats (visiting ⟨.expression, p, none⟩ q)
      q.boundNames) :
    p.Treats (planClauses p outer clauses) ((clauses.flatMap Clause.parts).flatMap boundNames) := by
  induction clauses generalizing outer with
  | nil => exact .nil
  | cons c clauses ih =>
    obtain ⟨htarget, htargets⟩ := List.forall_mem_cons.mp htarget
    obtain ⟨hcondition, hconditions⟩ := List.forall_mem_cons.mp hcondition
    have hrest := ih (fun d hd => hiterable d (List.mem_of_mem_head? hd))
      (fun d hd => hiterable d (List.mem_of_mem_tail hd)) htargets hconditions
    refine ((((hfirst c rfl).append htarget).append (.flatMap hcondition)).append hrest).perm ?_
    simp only [List.flatMap_cons, List.flatMap_append, Clause.parts, List.append_assoc]
    exact List.perm_append_comm_assoc _ _ _

end Expressions

section Comprehensions

variable (h : p.Stands .expression scope) {kind : ComprehensionKind} {element : Node}
  {value : Option Node}
  {clauses : List (Clause Node)} (hnode : p.node.form = .comprehension kind element value clauses)

include hnode

theorem form_of_comprehension :
    p.form = .comprehension kind (p.enter 0 element) (Form.numberOption p.enter 1 value)
    (Form.numberClauses p.enter (1 + value.toList.length) clauses) := by
  rw [form, hnode]
  rfl

include h

/-- All parts of a comprehension but its first iterable belong to it. -/
theorem Stands.treats_inner (hfull : w.task.isFull = true) (hscope : w.scope = p)
    (hq : (w.task.role, q) ∈ p.form.roles .expression)
    (hnumber : q.number ≠ 1 + value.toList.length + 1) :
    p.Treats (visiting w q) q.boundNames := by
  have hform := form_of_comprehension hnode
  refine h.treats_part hfull hq ?_ ?_
  · simp [hform, Form.isUnreadPart]
  · simp [hform, Form.isScope, Form.isHeaderPart, Form.toList_numberOption, hnumber, hscope]

theorem Stands.treats_clauses :
    p.Treats (planClauses p scope (Form.numberClauses p.enter (1 + value.toList.length) clauses))
      (((Form.numberClauses p.enter (1 + value.toList.length) clauses).flatMap Clause.parts).flatMap
        boundNames) := by
  have hform := form_of_comprehension hnode
  have hroles {c : Clause Place}
    (hc : c ∈ Form.numberClauses p.enter (1 + value.toList.length) clauses) :
      c.roles ⊆ p.form.roles .expression := by
    intro x hx
    rw [hform, Form.roles, List.mem_append, List.mem_flatMap]
    exact Or.inr ⟨c, hc, hx⟩
  obtain ⟨hfirst, hlater, hothers⟩ := number_iterable (p := p) (1 + value.toList.length) clauses
  refine treats_planClauses (fun c hc => ?_) (fun c hc => ?_) (fun c hc => ?_) (fun c hc q hq => ?_)
  · have hmem := List.mem_of_mem_head? hc
    refine h.treats_part rfl (hroles hmem (by simp [Clause.roles, IndexTask.role])) ?_ ?_
    · simp [hform, Form.isUnreadPart]
    · have hsome : clauses ≠ [] := by
        rintro rfl
        simp [Form.numberClauses] at hmem
      simp [hform, Form.isHeaderPart, Form.toList_numberOption, hfirst c hc, hsome]
  · exact h.treats_inner hnode rfl rfl
      (hroles (List.mem_of_mem_tail hc) (by simp [Clause.roles, IndexTask.role])) (hlater c hc)
  · exact h.treats_inner hnode rfl rfl (hroles hc (by simp [Clause.roles, IndexTask.role]))
      (hothers c hc).1
  · exact h.treats_inner hnode rfl rfl (hroles hc (by simp [Clause.roles, IndexTask.role, hq]))
      ((hothers c hc).2 q hq)

theorem Stands.treats_comprehension :
    p.Treats (p.planExpression scope) (p.form.parts.flatMap boundNames) := by
  have hform := form_of_comprehension hnode
  have helement : p.Treats (visiting ⟨.expression, p, none⟩ (p.enter 0 element))
    (p.enter 0 element).boundNames :=
    h.treats_inner hnode rfl rfl (by simp [hform, Form.roles, IndexTask.role])
      (by simp only [number_enter]; omega)
  have hvalue : p.Treats
    ((Form.numberOption p.enter 1 value).toList.flatMap (visiting ⟨.expression, p, none⟩))
      ((Form.numberOption p.enter 1 value).toList.flatMap boundNames) := by
    refine .flatMap fun q hq => h.treats_inner hnode rfl rfl ?_ ?_
    · simpa [hform, Form.roles, IndexTask.role] using Or.inr (Or.inl hq)
    · rw [Form.toList_numberOption] at hq
      have hlt := le_number_of_mem_numberList hq
      omega
  rw [planExpression, hform]
  simp only [Form.parts, List.flatMap_cons, List.flatMap_append, List.append_assoc]
  refine ((h.treats_clauses hnode).append (helement.append hvalue)).perm ?_
  exact List.perm_append_comm.trans (.of_eq (List.append_assoc _ _ _))

end Comprehensions

section Expressions

variable (h : p.Stands .expression scope)

include h

/-- The target of `:=` is bound in the first scope that is no comprehension. -/
theorem Stands.treats_named {target value : Place} (hform : p.form = .named target value) :
    p.Treats (p.planExpression scope) (p.form.parts.flatMap boundNames) := by
  have hplain : p.form.Plain := by
    rw [hform]
    exact ⟨rfl, fun _ => rfl⟩
  have htarget : (.bound, target) ∈ p.form.roles .expression := by simp [hform, Form.roles]
  have hstands : target.Stands .bound scope := h.part_of_plain hplain htarget
  have hvalue : p.Treats (visiting ⟨.expression, scope, none⟩ value) value.boundNames :=
    h.treats_plain hplain rfl rfl (by simp [hform, Form.roles, IndexTask.role])
  obtain ⟨owner, howner⟩ := hstands.grounded.exists_scopeBeyond?
  have hbeyond : scope.beyondComprehensions? = some owner := by
    rw [← howner, scopeBeyond?_of_scope? (h.scope?_of_bound (by decide) htarget hstands)]
  obtain ⟨id, hid, -⟩ := hstands.fits.exists_name
  rw [planExpression, hform]
  simp only [hbeyond, Form.parts, List.flatMap_cons, List.flatMap_nil, List.append_nil,
    boundNames_of_fits hstands.fits hstands.read]
  exact .append (treats_bindingEntry hid howner fun _ => h.isParamName_of_bound (by decide) htarget)
    hvalue

/-- The parts of any other expression are visited one after the other. -/
theorem Stands.treats_compound (hscope : p.form.isScope = false)
    (hnamed : ∀ target value, p.form ≠ .named target value) :
    p.Treats (p.form.parts.flatMap (visiting ⟨.expression, scope, none⟩))
    (p.form.parts.flatMap boundNames) := by
  have hkind : p.form.isExpression = true := by
    rw [form, Form.isExpression_number]
    exact h.fits.isExpression
  refine .flatMap fun q hq => h.treats_plain (Form.plain_of_isExpression hkind hscope) rfl rfl ?_
  rw [← Form.map_snd_roles .expression] at hq
  obtain ⟨⟨r, q⟩, hx, rfl⟩ := List.mem_map.mp hq
  cases Form.eq_expression_of_mem_roles hkind hscope hnamed _ hx
  exact hx

theorem Stands.treats_expression :
    p.Treats (p.planExpression scope) (p.form.parts.flatMap boundNames) := by
  have hkind := h.fits.isExpression
  cases hnode : p.node.form with
  | lambda params body => exact h.treats_lambda hnode
  | comprehension kind element value clauses => exact h.treats_comprehension hnode
  | named target value => exact h.treats_named (by rw [form, hnode]; rfl)
  | module | functionDef | classDef =>
    rw [hnode] at hkind
    cases hkind
  | _ =>
    have hcompound := h.treats_compound
    simp only [planExpression]
    rw [form, hnode] at hcompound ⊢
    exact hcompound rfl (by simp [Form.number])

end Expressions

theorem Stands.boundNames_expression (h : p.Stands .expression scope) :
    p.boundNames = p.form.parts.flatMap boundNames := boundNames_eq_flatMap h.fits.not_stored

section Targets

variable (h : p.Stands .target scope)

include h

/-- A target that has no elements is an expression. -/
theorem Stands.expression_of_target (hname : ∀ id, p.node.form ≠ .name id)
    (helements : ∀ elements, p.node.form ≠ .tuple elements ∧ p.node.form ≠ .list elements)
    (hstarred : ∀ value, p.node.form ≠ .starred value) : p.Stands .expression scope := by
  have hroles : p.node.form.roles .target = p.node.form.roles .expression := by
    cases hform : p.node.form with
    | tuple elements => exact absurd hform (helements elements).1
    | list elements => exact absurd hform (helements elements).2
    | starred value => exact absurd hform (hstarred value)
    | _ => rfl
  have hfits : p.node.Fits .expression :=
    .mk (.expression h.fits.isExpression_of_target fun id hid => absurd hid (hname id))
      (hroles ▸ h.fits.part)
  refine ⟨h.sited, h.grounded, h.read, hfits, h.enclosing, fun hparam => ?_⟩
  rcases h.isParamName hparam with hrole | hrole <;> cases hrole

/-- A name is bound in the scope around it. -/
theorem Stands.treats_target_name {definition : Place} (hkind : kind ≠ .namedExpr) {id : Text}
    (hnode : p.node.form = .name id) :
    p.Treats (bindingEntry p definition kind scope) p.boundNames := by
  have hname : p.isParamName = false := by
    by_contra hname
    rcases h.isParamName (by simpa using hname) with hrole | hrole <;> cases hrole
  rw [boundNames_of_name hnode (h.fits.stored id hnode) h.read]
  exact treats_bindingEntry hnode
    (by rw [if_neg hkind, h.sited.scope?_eq_enclosing? hname, h.enclosing]) fun _ => hname

omit h in
theorem treats_selfEntry {definition value : Place} {frame : Option MethodFrame} {name : Text} :
    p.Treats (selfEntry p definition kind frame value name) [] := by
  refine .of_adds fun step hstep => ?_
  unfold selfEntry at hstep
  split at hstep
  · split at hstep
    · cases List.mem_singleton.mp hstep
      exact ⟨_, rfl, rfl⟩
    · cases hstep
  · cases hstep

theorem Stands.treats_target {definition : Place} {frame : Option MethodFrame}
    (hkind : kind ≠ .namedExpr) :
    p.Treats (p.planTarget definition kind scope frame) p.boundNames := by
  have hfull : (IndexTask.target definition kind).isFull = true := by
    simpa [IndexTask.isFull] using hkind
  have helements {q : Place} (hplain : p.form.Plain) (hq : (.target, q) ∈ p.form.roles .target) :
      p.Treats (visiting ⟨.target definition kind, scope, frame⟩ q) q.boundNames :=
    h.treats_plain hplain hfull rfl hq
  cases hnode : p.node.form with
  | name id =>
    rw [planTarget, form, hnode]
    exact h.treats_target_name hkind hnode
  | tuple elements | list elements =>
    rw [boundNames_eq_flatMap (by simp [hnode]), planTarget, form, hnode]
    rw [form, hnode] at helements
    exact .flatMap fun q hq => helements ⟨rfl, fun _ => rfl⟩ (List.mem_map_of_mem hq)
  | starred value =>
    rw [boundNames_eq_flatMap (by simp [hnode]), planTarget, form, hnode]
    rw [form, hnode] at helements
    simpa [Form.number, Form.parts] using helements ⟨rfl, fun _ => rfl⟩ List.mem_cons_self
  | attr value name position =>
    have hplain : p.form.Plain := by
      rw [form, hnode]
      exact ⟨rfl, fun _ => rfl⟩
    have hvalue : p.Treats (visiting ⟨.expression, scope, none⟩ (p.enter 0 value))
      (p.enter 0 value).boundNames :=
      h.treats_plain hplain rfl rfl
        (by simp [form, hnode, Form.number, Form.roles, Form.parts, IndexTask.role])
    rw [boundNames_eq_flatMap (by simp [hnode]), planTarget, form, hnode]
    simpa [Form.number, Form.parts] using Treats.append treats_selfEntry hvalue
  | _ =>
    have hexpression := h.expression_of_target (by simp [hnode]) (by simp [hnode]) (by simp [hnode])
    have hplan : p.planTarget definition kind scope frame = p.planExpression scope := by
      rw [planTarget, form, hnode]
      rfl
    rw [hexpression.boundNames_expression, hplan]
    exact hexpression.treats_expression

end Targets

end Place

end NameInference

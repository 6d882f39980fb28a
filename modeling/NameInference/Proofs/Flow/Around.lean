import NameInference.Proofs.Scope.AtPosition
import NameInference.Proofs.Scope.Redirection

/-!
# The flow statements around a place

Flow statements are found from one to the next on the way up. In an accepted source a statement is
never below a header or an expression, so no scope is passed by behind the first flow statement: the
flow statements around a place are those between it and any flow statement of its scope, and then
those around that one.
-/

namespace NameInference

open List Place

variable {inner : List (Nat × Node)}

namespace Form

variable {ν : Type} {form : Form ν} {i : Nat}

/-- Whether the part with number `i` is a statement in a block, a handler or a manager. -/
def isBlockPart (i : Nat) : Form ν → Bool
  | module _ | tryStmt .. | withStmt .. => true
  | ifStmt .. | whileStmt .. => 1 ≤ i
  | forStmt .. => 2 ≤ i
  | handler type target _ => type.toList.length + target.toList.length ≤ i
  | form => form.colon?.isSome && form.header.length ≤ i

theorem isBlockPart_of_roles {role : Role} {n : ν}
    (h : (form.roles role)[i]? = some (.statement, n)) :
    form.isBlockPart i = true := by
  have helement : role.ofElement ≠ .statement := by cases role <;> decide
  cases form with
  | comprehension => simpa [roles, Clause.roles] using mem_of_getElem? h
  | _ => simp [roles, isBlockPart, header, colon?, getElem?_append] at h ⊢ <;> grind

/-- Only modules and statements have blocks. -/
theorem isStatement_of_isBlockPart (h : form.isBlockPart i = true)
    (hmodule : ∀ body, form ≠ .module body) :
    form.isStatement = true := by
  cases form <;> simp_all [isBlockPart, isStatement, colon?]

theorem isTestPart_of_isBlockPart (h : form.isBlockPart i = true) : form.isTestPart i = false := by
  cases form <;> simp_all [isBlockPart, isTestPart]
  omega

/-- A scope that has blocks is a module or a definition, and its blocks stand behind its header. -/
theorem isHeaderPart_of_isBlockPart (h : form.isBlockPart i = true) :
    form.isHeaderPart i = false := by
  cases form <;> simp_all [isBlockPart, isHeaderPart, header, colon?]

theorem isExpression_of_isStatement (h : form.isStatement = true) : form.isExpression = false := by
  cases form <;> first | rfl | cases h

theorem isStatement_of_isFlow (h : form.isFlow = true) : form.isStatement = true := by
  cases form <;> first | rfl | cases h

theorem isScope_of_isFlow (h : form.isFlow = true) : form.isScope = false := by
  cases form <;> first | rfl | cases h

end Form

/-- What is a statement stands as a statement. -/
theorem Role.Suits.eq_statement_of_isStatement {role : Role} {usage : Usage} {form : Form Node}
    (h : role.Suits usage form) (hform : form.isStatement = true) : role = .statement := by
  cases h with
  | statement => rfl
  | expression kind _ | target kind _ => simp [Form.isExpression_of_isStatement hform] at kind
  | param | item | bound | declared => cases hform

namespace Place

variable {p q flow root : Place}

/-- The way up from a statement leads through blocks only. -/
def InBlocks (p : Place) : Prop :=
  p.node.form.isStatement = true → ∀ x ∈ p.above, x.2.form.isBlockPart x.1 = true

theorem Sited.inBlocks_child (h : p.Sited) (hp : p.InBlocks) {child : Place}
    (hchild : child ∈ p.children) :
    child.InBlocks := by
  obtain ⟨role, hfits⟩ := h.fits
  obtain ⟨i, n, hn, -, rfl⟩ := exists_enter_of_mem_children hchild
  intro hstatement
  rw [Node.children, ← Form.map_snd_roles role, getElem?_map, Option.map_eq_some_iff] at hn
  obtain ⟨⟨part, n⟩, hpart, rfl⟩ := hn
  have hpart' := hfits.part _ (mem_of_getElem? hpart)
  obtain rfl : part = .statement := hpart'.suits.eq_statement_of_isStatement hstatement
  have hblock := Form.isBlockPart_of_roles hpart
  exact forall_mem_cons.mpr ⟨hblock, hp (Form.isStatement_of_isBlockPart hblock h.form_ne_module)⟩

/-- A statement that a place is below stands in no header, so the scopes around it hold the place
too. -/
theorem Sited.stops (h : p.Sited) {x : Nat × Node} (hx : x ∈ p.above)
    (hscope : x.2.form.isScope = true) (hblock : x.2.form.isBlockPart x.1 = true)
    (paramName : Bool) :
    x.2.form.isOuterPart x.1 p.start paramName = false := by
  have hcolon (colon : Position) (hfound : x.2.form.colon? = some colon) := h.upTo_colon hx hfound
  have hheader := Form.isHeaderPart_of_isBlockPart hblock
  cases hform : x.2.form <;>
    simp_all [Form.isOuterPart, Form.isHeaderPart, Form.isScope, Form.colon?]

theorem mem_ancestors_of_governor? (h : p.governor? = some flow) : flow ∈ p.ancestors :=
  mem_alongWay_of_governorAlong h

theorem flowsAround_of_governor? (h : p.governor? = some flow)
    (hflow : flow.node.form.isFlow = true) :
    p.flowsAround = flow :: flow.flowsAround := by
  rw [flowsAround]
  split
  · next hnone => cases hnone.symm.trans h
  · next found hfound =>
    cases hfound.symm.trans h
    simp [Form.isScope_of_isFlow hflow]

theorem flowsAround_of_isScope (h : p.governor? = some q) (hscope : q.node.form.isScope = true) :
    p.flowsAround = [] := by
  rw [flowsAround]
  split
  · rfl
  · next found hfound =>
    cases hfound.symm.trans h
    simp [hscope]

theorem ancestors_trans (h : q ∈ p.ancestors) (hflow : flow ∈ q.ancestors) :
    flow ∈ p.ancestors := by
  obtain ⟨htree, inner, i, habove⟩ := mem_alongWay.mp h
  obtain ⟨htree', inner', j, habove'⟩ := mem_alongWay.mp hflow
  exact mem_alongWay.mpr ⟨htree'.trans htree, inner ++ (i, q.node) :: inner', j,
    by simp [habove, habove']⟩

theorem mem_ancestors_of_mem_flowsAround (h : flow ∈ p.flowsAround) : flow ∈ p.ancestors := by
  fun_induction flowsAround p with
  | case1 => cases h
  | case2 => cases h
  | case3 p found hfound hscope ih =>
    rcases mem_cons.mp h with rfl | h
    · exact mem_ancestors_of_governor? hfound
    · exact ancestors_trans (mem_ancestors_of_governor? hfound) (ih h)

/-- Whether a scope along the way holds a place, so that the place does not belong to anything
further out. -/
def Holds (p : Place) (x : Nat × Node) : Prop :=
  x.2.form.isScope = true ∧ x.2.form.isOuterPart x.1 p.start p.isParamName = false

/-- A scope along the way that holds a place is not further out than the scope of the place. -/
theorem exists_scope?_of_holds {x : Nat × Node} {outer : List (Nat × Node)}
    (habove : p.above = inner ++ x :: outer) (hx : p.Holds x) :
    ∃ s, p.scope? = some s ∧ outer.length ≤ s.depth := by
  rw [scope?, habove]
  obtain ⟨hscope, houter⟩ := hx
  clear habove
  induction inner with
  | nil => exact ⟨⟨p.tree, x.2, outer⟩, by simp [governorAlong, hscope, houter], le_rfl⟩
  | cons step inner ih =>
    rw [cons_append, governorAlong]
    split
    · exact ⟨_, rfl, by simp [depth]; omega⟩
    · exact ih

/-- If no scope holds the place before a flow statement that it is not in the test of, then the
first flow statement along the way governs it. -/
theorem exists_governor? {i : Nat} (htree : flow.tree = p.tree)
    (habove : p.above = inner ++ (i, flow.node) :: flow.above)
    (hflow : flow.node.form.isFlow = true) (htest : flow.node.form.isTestPart i = false)
    (hpasses : ∀ x ∈ inner, ¬ p.Holds x) :
    p.governor? = some flow ∨ ∃ near before j after, p.governor? = some near ∧ near.tree = p.tree ∧
      near.node.form.isFlow = true ∧ inner = before ++ (j, near.node) :: after ∧
      near.above = after ++ (i, flow.node) :: flow.above := by
  rw [governor?, habove]
  clear habove
  induction inner with
  | nil =>
    left
    simp [governorAlong, hflow, htest, ← htree]
  | cons step inner ih =>
    obtain ⟨hstep, hrest⟩ := forall_mem_cons.mp hpasses
    obtain ⟨j, n⟩ := step
    rw [cons_append, governorAlong]
    have hnone : (n.form.isScope && !n.form.isOuterPart j p.start p.isParamName) = false := by
      rw [Bool.eq_false_iff]
      intro hholds
      simp only [Bool.and_eq_true, Bool.not_eq_true'] at hholds
      exact hstep hholds
    rw [hnone, Bool.false_or, Bool.true_and]
    split
    · next hnear =>
      rw [Bool.and_eq_true] at hnear
      exact .inr ⟨⟨p.tree, n, _⟩, [], j, inner, rfl, rfl, hnear.1, rfl, rfl⟩
    · rcases ih hrest with hfound | ⟨near, before, k, after, hgovernor, hnear, hkind, rfl, hway⟩
      · exact .inl hfound
      · exact .inr ⟨near, (j, n) :: before, k, after, hgovernor, hnear, hkind, rfl, hway⟩

end Place

section

variable {source : Source} {m : Module} (h : Module.ofSource source = .ok m) {tree : Nat}
  {p flow : Place}

include h

theorem Module.inBlocks_of_mem_walk (hp : p ∈ (Place.root tree m).walk) : p.InBlocks := by
  obtain ⟨body, hform, -⟩ := fits_of_ofSource h
  rw [walk_eq, mem_cons, mem_flatMap] at hp
  rcases hp with rfl | ⟨child, hchild, hp⟩
  · simp [Place.InBlocks, Place.root]
  · have hroot : child.InBlocks := by
      obtain ⟨i, n, -, -, rfl⟩ := exists_enter_of_mem_children hchild
      simp [Place.InBlocks, Place.enter, Place.root, hform, Form.isBlockPart]
    exact (walk_induction (P := fun p => p.Sited ∧ p.InBlocks)
      (fun a ha c hc => ⟨ha.1.child hc, ha.1.inBlocks_child ha.2 hc⟩)
      ⟨(sited_of_ofSource h tree child hchild).1, hroot⟩ p hp).2

/-- The flow statements around a place lead to every flow statement of its scope that it is below,
but not in the test of, and go on from there. -/
theorem Module.exists_flowsAround_of_passes (hp : p ∈ (Place.root tree m).walk) {i : Nat}
    (htree : flow.tree = p.tree) (habove : p.above = inner ++ (i, flow.node) :: flow.above)
    (hflow : flow.node.form.isFlow = true) (htest : flow.node.form.isTestPart i = false)
    (hpasses : ∀ x ∈ inner, ¬ p.Holds x) :
    ∃ nearer, p.flowsAround = nearer ++ flow :: flow.flowsAround ∧
      ∀ f ∈ nearer, f ∈ p.ancestors ∧ flow ∈ f.ancestors := by
  generalize hlength : inner.length = n
  induction n using Nat.strongRecOn generalizing p inner i with
  | ind n ih =>
    rcases exists_governor? htree habove hflow htest hpasses with
      hgovernor | ⟨near, before, j, after, hgovernor, hnear, hkind, rfl, hway⟩
    · exact ⟨[], by rw [flowsAround_of_governor? hgovernor hflow, nil_append], by simp⟩
    · have hmem := mem_ancestors_of_governor? hgovernor
      have hwalk := (mem_walk_of_mem_upwards rfl hp (mem_cons_of_mem _ hmem)).1
      have hblocks := inBlocks_of_mem_walk h hwalk (Form.isStatement_of_isFlow hkind)
      have hproper : p ≠ Place.root tree m := by
        rintro rfl
        simp [Place.root] at habove
      have hsited := (sited_of_mem_walk h hp).resolve_left hproper
      -- Behind a flow statement no scope is left out, so there is none before the one looked for.
      have hnone : ∀ x ∈ after, ¬ near.Holds x := by
        rintro x hx ⟨hscope, -⟩
        have hblock := hblocks x (by simp [hway, hx])
        exact hpasses x (by simp [hx]) ⟨hscope, hsited.stops (by simp [habove, hx]) hscope hblock _⟩
      have htest' := Form.isTestPart_of_isBlockPart (hblocks (i, flow.node) (by simp [hway]))
      obtain ⟨nearer, hflows, hbetween⟩ :=
        ih after.length (by rw [← hlength]; simp; omega) hwalk (htree.trans hnear.symm) hway htest'
          hnone rfl
      refine ⟨near :: nearer, by rw [flowsAround_of_governor? hgovernor hkind, hflows, cons_append],
        ?_⟩
      refine forall_mem_cons.mpr ⟨⟨hmem, ?_⟩, fun f hf => ?_⟩
      · exact mem_alongWay.mpr ⟨htree.trans hnear.symm, after, i, hway⟩
      · exact ⟨ancestors_trans hmem (hbetween f hf).1, (hbetween f hf).2⟩

end

end NameInference

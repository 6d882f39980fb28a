import NameInference.Proofs.Flow.Around

/-!
# Control paths through statements

A path takes statements one after the other. At an `if` it goes either way, a loop runs any number
of times, and any statement may fail, which leads into the handlers of a `try` around it. A path
that ends in a `return` has passed no earlier one that stands in the body or in managers only:
control would have ended there.
-/

namespace NameInference

open List NameInference.Module Place

variable {isAsync : Bool} {colon : Position} {name : Place} {decorators params body : List Place}
  {returns : Option Place}

/-- How a path through statements ends: behind them, at a `return`, at a `break` or `continue`, or
with a failure. -/
inductive Ending where
  | onward | returned (stmt : Place) | broken | continued | failed

/-- What becomes of an ending when a last block is passed: this block may end otherwise. -/
def Ending.through (ending last : Ending) : Ending :=
  match last with
  | .onward => ending
  | last => last

/-- Statements that control passes or fails in, without a block of their own to run. -/
def Form.isSimple {ν : Type} : Form ν → Bool
  | .returnStmt _ | .breakStmt | .continueStmt | .raise .. | .handler .. => false
  | form => form.isStatement && !form.isFlow

/-- The two blocks of a loop. -/
def Form.loop? {ν : Type} : Form ν → Option (List ν × List ν)
  | .whileStmt _ body orElse | .forStmt _ _ _ body orElse => some (body, orElse)
  | _ => none

/-- Whether the place is a manager of a `with` statement. -/
def Place.isManager (p : Place) : Bool :=
  match p.node.form with
  | .withItem .. => true
  | _ => false

/-- The paths through a block. -/
inductive Path : List Place → Ending → Prop where
  | nil : Path [] .onward
  | next {stmt : Place} {rest : List Place} {ending : Ending} (first : Path [stmt] .onward)
      (others : Path rest ending) : Path (stmt :: rest) ending
  | stop {stmt : Place} {rest : List Place} {ending : Ending} (first : Path [stmt] ending)
      (ne : ending ≠ .onward) : Path (stmt :: rest) ending
  | fail (stmts : List Place) : Path stmts .failed
  | simple {stmt : Place} (form : stmt.node.form.isSimple = true) : Path [stmt] .onward
  | returned {stmt : Place} {value : Option Place} (form : stmt.form = .returnStmt value) :
    Path [stmt] (.returned stmt)
  | broken {stmt : Place} (form : stmt.form = .breakStmt) : Path [stmt] .broken
  | continued {stmt : Place} (form : stmt.form = .continueStmt) : Path [stmt] .continued
  | ifStmt {stmt test : Place} {isElif : Bool} {body orElse branch : List Place} {ending : Ending}
      (form : stmt.form = .ifStmt isElif test body orElse) (either : branch = body ∨
        branch = orElse) (inside : Path branch ending) : Path [stmt] ending
  | withStmt {stmt : Place} {isAsync : Bool} {items body : List Place} {ending : Ending}
      (form : stmt.form = .withStmt isAsync items body)
        (managers : ∀ item ∈ items, item.isManager = true)
      (inside : Path body ending) : Path [stmt] ending
  | done {stmt : Place} {body orElse : List Place} {ending : Ending}
    (loop : stmt.form.loop? = some (body, orElse))
      (after : Path orElse ending) : Path [stmt] ending
  | again {stmt : Place} {body orElse : List Place} {round ending : Ending}
      (loop : stmt.form.loop? = some (body, orElse)) (inside : Path body round)
      (goes : round = .onward ∨ round = .continued) (others : Path [stmt] ending) :
        Path [stmt] ending
  | leave {stmt : Place} {body orElse : List Place} (loop : stmt.form.loop? = some (body, orElse))
      (inside : Path body .broken) : Path [stmt] .onward
  | interrupt {stmt : Place} {body orElse : List Place} {ending : Ending}
      (loop : stmt.form.loop? = some (body, orElse)) (inside : Path body ending)
      (ne : ending ≠ .onward ∧ ending ≠ .continued ∧ ending ≠ .broken) : Path [stmt] ending
  | tryElse {stmt : Place} {body handlers orElse final : List Place} {ending last : Ending}
      (form : stmt.form = .tryStmt body handlers orElse final) (inside : Path body .onward)
      (after : Path orElse ending) (finally' : Path final last) : Path [stmt] (ending.through last)
  | handler {stmt handler : Place} {body handlers orElse final block : List Place}
    {type target : Option Place}
      {ending last : Ending} (form : stmt.form = .tryStmt body handlers orElse final)
        (inside : Path body .failed)
      (mem : handler ∈ handlers) (handles : handler.form = .handler type target block)
      (caught : Path block ending) (finally' : Path final last) : Path [stmt] (ending.through last)
  | tryBody {stmt : Place} {body handlers orElse final : List Place} {ending last : Ending}
      (form : stmt.form = .tryStmt body handlers orElse final) (inside : Path body ending)
      (ne : ending ≠ .onward) (finally' : Path final last) : Path [stmt] (ending.through last)

namespace Place

variable {p q stmt fn root : Place} {stmts : List Place}

/-- Whether the place is a `return` statement. -/
def isReturn (p : Place) : Bool :=
  match p.node.form with
  | .returnStmt _ => true
  | _ => false

/-- The `return` statements of a block that belong to the body it is in, in source order. -/
def returnsOf (stmts : List Place) : List Place :=
  (stmts.flatMap fun stmt => if stmt.opensBody then [] else stmt :: stmt.ownPlaces).filter isReturn

theorem returnStatements_eq
    (h : fn.form = .functionDef isAsync colon decorators name params returns body) :
    fn.returnStatements = returnsOf body := by
  simp only [returnStatements, bodyPlaces, h]
  rfl

theorem returnsOf_append (stmts others : List Place) :
    returnsOf (stmts ++ others) = returnsOf stmts ++ returnsOf others := by
  simp [returnsOf]

theorem returnsOf_cons (stmt : Place) (rest : List Place) :
    returnsOf (stmt :: rest) = returnsOf [stmt] ++ returnsOf rest :=
  returnsOf_append [stmt] rest

theorem ownPlaces_eq (p : Place) :
    p.ownPlaces = p.children.flatMap fun c => if c.opensBody then [] else c :: c.ownPlaces := by
  rw [ownPlaces,
    flatMap_subtype (g := fun c => if c.opensBody then [] else c :: c.ownPlaces) fun _ _ => rfl,
    unattach_attach]

/-- The `return` statements of a statement are itself, if it is one, and those of its parts. -/
theorem returnsOf_singleton (h : stmt.opensBody = false) :
    returnsOf [stmt] = (if stmt.isReturn then [stmt] else []) ++ returnsOf stmt.children := by
  rw [returnsOf, flatMap_cons, flatMap_nil, append_nil, h, if_neg (by simp), filter_cons,
    ownPlaces_eq]
  split <;> rfl

theorem isReturn_form (p : Place) : p.isReturn = match p.form with
    | .returnStmt _ => true
    | _ => false := by
  unfold isReturn form
  cases p.node.form <;> rfl

theorem opensBody_form (p : Place) : p.opensBody = match p.form with
    | .functionDef .. | .classDef .. | .lambda .. => true
    | _ => false := by
  unfold opensBody isFunction isClass isLambda form
  cases p.node.form <;> rfl

theorem isStatement_of_isReturn (h : p.isReturn = true) : p.node.form.isStatement = true := by
  unfold isReturn at h
  split at h
  · next hform => rw [hform]; rfl
  · cases h

theorem colon?_of_opensBody (h : p.opensBody = false) : p.node.form.colon? = none := by
  unfold opensBody isFunction isClass at h
  cases hform : p.node.form <;> simp_all [Form.colon?]

/-- What belongs to the same body as a place is below it, with no definition in between. -/
theorem exists_above_of_mem_ownPlaces (h : q ∈ p.ownPlaces) :
    q ∈ p.walk ∧ q.tree = p.tree ∧ ∃ inner i, q.above = inner ++ (i, p.node) :: p.above ∧
      ∀ x ∈ inner, x.2.form.colon? = none := by
  induction p using ownPlaces.induct with
  | case1 p ih =>
    rw [ownPlaces_eq, mem_flatMap] at h
    obtain ⟨c, hc, h⟩ := h
    split at h
    · cases h
    · next hopens =>
      obtain ⟨i, n, hn, -, rfl⟩ := exists_enter_of_mem_children hc
      rcases mem_cons.mp h with rfl | h
      · exact ⟨mem_walk_of_mem_children p.mem_walk_self hc, rfl, [], i, rfl, by simp⟩
      · obtain ⟨hwalk, htree, inner, j, habove, hcolon⟩ := ih _ hc h
        refine ⟨mem_walk_of_mem_walk (mem_walk_of_mem_children p.mem_walk_self hc) hwalk, htree,
          inner ++ [(j, n)], i, by rw [habove]; simp [enter], ?_⟩
        simp only [mem_append, mem_singleton]
        rintro x (hx | rfl)
        · exact hcolon x hx
        · exact colon?_of_opensBody (p := p.enter i n) (by simpa using hopens)

theorem mem_returnsOf_children :
    q ∈ returnsOf p.children ↔ q ∈ p.ownPlaces ∧ q.isReturn = true := by
  rw [returnsOf, ← ownPlaces_eq, mem_filter]

theorem mem_returnsOf_of_subset {others : List Place} (h : stmts ⊆ others)
    (hq : q ∈ returnsOf stmts) :
    q ∈ returnsOf others := by
  simp only [returnsOf, mem_filter, mem_flatMap] at hq ⊢
  obtain ⟨⟨stmt, hstmt, hmem⟩, hreturn⟩ := hq
  exact ⟨⟨stmt, h hstmt, hmem⟩, hreturn⟩

theorem mem_returnsOf_singleton (hopens : stmt.opensBody = false)
    (hq : q ∈ returnsOf stmt.children) :
    q ∈ returnsOf [stmt] := by
  rw [returnsOf_singleton hopens]
  exact mem_append_right _ hq

theorem isScope_of_functionDef
    (h : fn.form = .functionDef isAsync colon decorators name params returns body) :
    fn.node.form.isScope = true := by
  rw [← Form.isScope_number (f := fn.enter)]
  exact congrArg Form.isScope h

theorem body_subset
    (h : fn.form = .functionDef isAsync colon decorators name params returns body) :
    body ⊆ fn.children := by
  rw [← parts_form, h]
  exact subset_append_right _ _

theorem mem_walk_of_mem_returnStatements
    (h : fn.form = .functionDef isAsync colon decorators name params returns body)
    (hstmt : stmt ∈ fn.returnStatements) :
    stmt ∈ fn.walk ∧ stmt.node.form.isStatement = true := by
  rw [returnStatements_eq h] at hstmt
  obtain ⟨hown, hreturn⟩ :=
    mem_returnsOf_children.mp (mem_returnsOf_of_subset (body_subset h) hstmt)
  exact ⟨(exists_above_of_mem_ownPlaces hown).1, isStatement_of_isReturn hreturn⟩

/-- Whether the place is a `with` statement. -/
def isWith (p : Place) : Bool :=
  match p.node.form with
  | .withStmt .. => true
  | _ => false

/-- Whether a place belongs to its body directly or within managers only. -/
def isCertain (p : Place) : Bool := p.flowsAround.all isWith

end Place

/-- Without a colon, only a module is both a scope and a statement with blocks. -/
theorem Form.isScope_of_isBlockPart {ν : Type} {form : Form ν} {i : Nat}
    (hblock : form.isBlockPart i = true) (hcolon : form.colon? = none)
    (hmodule : ∀ body, form ≠ .module body) : form.isScope = false := by
  cases form <;> simp_all [Form.isBlockPart, Form.isScope, Form.colon?]

section

variable {source : Source} {m : Module} (h : Module.ofSource source = .ok m) {tree : Nat}
  {stmt r : Place} {stmts : List Place}

include h

/-- The way from a `return` statement up to a place of its body leads through blocks. -/
theorem Module.isBlockPart_of_mem_returnsOf (hstmt : stmt ∈ (Place.root tree m).walk)
    (hr : r ∈ Place.returnsOf stmt.children) :
    r ∈ (Place.root tree m).walk ∧ stmt.tree = r.tree ∧ ∃ inner i, r.above =
      inner ++ (i, stmt.node) :: stmt.above ∧
      stmt.node.form.isBlockPart i = true ∧ ∀ x ∈ inner, x.2.form.isScope = false := by
  obtain ⟨hown, hreturn⟩ := mem_returnsOf_children.mp hr
  obtain ⟨hbelow, htree, inner, i, habove, hcolon⟩ := exists_above_of_mem_ownPlaces hown
  have hwalk := mem_walk_of_mem_walk hstmt hbelow
  have hblocks := inBlocks_of_mem_walk h hwalk (isStatement_of_isReturn hreturn)
  refine ⟨hwalk, htree.symm, inner, i, habove, hblocks (i, stmt.node) (by simp [habove]),
    fun x hx => ?_⟩
  obtain ⟨front, back, rfl⟩ := append_of_mem hx
  obtain ⟨j, n⟩ := x
  have hthrough : (⟨r.tree, n, back ++ (i, stmt.node) :: stmt.above⟩ : Place) ∈ r.ancestors :=
    mem_alongWay.mpr ⟨rfl, front, j, by simp [habove]⟩
  have hsited := sited_of_mem_walk h
    (mem_walk_of_mem_upwards rfl hwalk (mem_cons_of_mem _ hthrough)).1
  have hmodule := (hsited.resolve_left fun heq => by simp [Place.root] at heq).form_ne_module
  exact Form.isScope_of_isBlockPart (hblocks (j, n) (by simp [habove])) (hcolon (j, n) hx) hmodule

/-- A flow statement is around all `return` statements in it. -/
theorem Module.mem_flowsAround_of_mem_returnsOf (hstmt : stmt ∈ (Place.root tree m).walk)
    (hflow : stmt.node.form.isFlow = true) (hr : r ∈ Place.returnsOf stmt.children) :
    stmt ∈ r.flowsAround := by
  obtain ⟨hwalk, htree, inner, i, habove, hblock, hscopes⟩ :=
    isBlockPart_of_mem_returnsOf h hstmt hr
  have htest := Form.isTestPart_of_isBlockPart hblock
  have hpasses : ∀ x ∈ inner, ¬ r.Holds x := by
    rintro x hx ⟨hscope, -⟩
    rw [hscopes x hx] at hscope
    cases hscope
  obtain ⟨nearer, hflows, -⟩ :=
    exists_flowsAround_of_passes h hwalk htree habove hflow htest hpasses
  simp [hflows]

/-- Where there are no blocks there are no `return` statements. -/
theorem Module.returnsOf_children_eq_nil (hstmt : stmt ∈ (Place.root tree m).walk)
    (hblock : ∀ i, stmt.node.form.isBlockPart i = false) : Place.returnsOf stmt.children = [] := by
  rw [eq_nil_iff_forall_not_mem]
  intro r hr
  obtain ⟨-, -, -, i, -, hpart, -⟩ := isBlockPart_of_mem_returnsOf h hstmt hr
  rw [hblock] at hpart
  cases hpart

end

/-- Flow statements that control may pass without what is in them. -/
def Form.isFork {ν : Type} : Form ν → Bool
  | .ifStmt .. | .whileStmt .. | .forStmt .. | .tryStmt .. => true
  | _ => false

theorem Place.isFork_form (p : Place) : p.form.isFork = p.node.form.isFork := by
  unfold Place.form
  cases p.node.form <;> rfl

/-- A loop is a fork, and its two blocks are parts of it. -/
theorem Place.parts_of_loop? {p : Place} {body orElse : List Place}
    (h : p.form.loop? = some (body, orElse)) :
    p.form.isFork = true ∧ body ⊆ p.children ∧ orElse ⊆ p.children := by
  rw [← parts_form]
  cases hform : p.form with
  | whileStmt | forStmt =>
    cases hform ▸ h
    refine ⟨rfl, fun q hq => ?_, fun q hq => ?_⟩
    · simp [Form.parts, hq]
    · simp [Form.parts, hq]
  | _ => simp [hform, Form.loop?] at h

theorem Place.parts_of_tryStmt {p : Place} {body handlers orElse final : List Place}
    (h : p.form = .tryStmt body handlers orElse final) :
    p.form.isFork = true ∧ body ⊆ p.children ∧ handlers ⊆ p.children ∧ orElse ⊆ p.children ∧
      final ⊆ p.children := by
  rw [← parts_form, h]
  refine ⟨rfl, fun q hq => ?_, fun q hq => ?_, fun q hq => ?_, fun q hq => ?_⟩
  · simp [Form.parts, hq]
  · simp [Form.parts, hq]
  · simp [Form.parts, hq]
  · simp [Form.parts, hq]

namespace Ending

variable {ending last : Ending} {stmt r : Place} {stmts : List Place}

/-- What an ending says of the `return` statements: behind a block, none of them is certain, and at
one of them, none of those before it is. -/
def Passes (stmts : List Place) : Ending → Prop
  | .onward => ∀ s ∈ Place.returnsOf stmts, s.isCertain = false
  | .returned r => ∃ before after, Place.returnsOf stmts = before ++ r :: after ∧
    ∀ s ∈ before, s.isCertain = false
  | .broken | .continued | .failed => True

theorem Passes.mem (h : Passes stmts (.returned r)) : r ∈ Place.returnsOf stmts := by
  obtain ⟨before, after, heq, -⟩ := h
  simp [heq]

/-- In a fork there is nothing more to say than that the `return` is one of it. -/
theorem passes_of_mem (hcertain : ∀ s ∈ Place.returnsOf stmts, s.isCertain = false)
    (hmem : ∀ r, ending = .returned r → r ∈ Place.returnsOf stmts) : ending.Passes stmts := by
  cases ending with
  | onward => exact hcertain
  | returned r =>
    obtain ⟨before, after, heq⟩ := append_of_mem (hmem r rfl)
    exact ⟨before, after, heq, fun s hs => hcertain s (by simp [heq, hs])⟩
  | broken | continued | failed => trivial

theorem Passes.through (h : ending.Passes stmts) (hlast : last.Passes stmts) :
    (ending.through last).Passes stmts := by
  cases last with
  | onward => exact h
  | _ => exact hlast

theorem passes_congr {others : List Place} (heq : Place.returnsOf stmts = Place.returnsOf others) :
    ending.Passes stmts ↔ ending.Passes others := by
  cases ending <;> simp [Passes, heq]

end Ending

section

variable {source : Source} {m : Module} (h : Module.ofSource source = .ok m) {tree : Nat}
  {stmt : Place} (hstmt : stmt ∈ (Place.root tree m).walk)

include h hstmt

theorem Module.isCertain_of_isFork (hfork : stmt.node.form.isFork = true) :
    stmt.opensBody = false ∧ ∀ s ∈ Place.returnsOf [stmt], s.isCertain = false := by
  have hkind : stmt.opensBody = false ∧ stmt.isReturn = false ∧ stmt.isWith = false ∧
      stmt.node.form.isFlow = true := by
    simp only [Place.opensBody, Place.isFunction, Place.isClass, Place.isLambda, Place.isReturn,
      Place.isWith]
    cases hform : stmt.node.form <;> simp_all [Form.isFork, Form.isFlow]
  obtain ⟨hopens, hreturn, hwith, hflow⟩ := hkind
  refine ⟨hopens, fun s hs => ?_⟩
  rw [returnsOf_singleton hopens, hreturn, if_neg (by simp), nil_append] at hs
  have hmem := mem_flowsAround_of_mem_returnsOf h hstmt hflow hs
  rw [Place.isCertain, all_eq_false]
  exact ⟨stmt, hmem, by simp [hwith]⟩

theorem Module.passes_of_isFork (hfork : stmt.form.isFork = true) {ending : Ending}
    (hmem : ∀ r, ending = .returned r → r ∈ Place.returnsOf stmt.children) :
    ending.Passes [stmt] := by
  obtain ⟨hopens, hcertain⟩ := isCertain_of_isFork h hstmt (stmt.isFork_form ▸ hfork)
  exact Ending.passes_of_mem hcertain fun r hr => mem_returnsOf_singleton hopens (hmem r hr)

/-- What is passed in a block of a fork is passed in the fork. -/
theorem Module.passes_of_block (hfork : stmt.form.isFork = true) {block : List Place}
    (hsub : block ⊆ stmt.children) {ending : Ending} (hinside : ending.Passes block) :
    ending.Passes [stmt] := by
  refine passes_of_isFork h hstmt hfork fun r hr => ?_
  subst hr
  exact mem_returnsOf_of_subset hsub hinside.mem

/-- A statement without blocks to run has no `return` of the body. -/
theorem Module.returnsOf_of_isSimple (hsimple : stmt.node.form.isSimple = true) :
    Place.returnsOf [stmt] = [] := by
  by_cases hopens : stmt.opensBody = true
  · simp [Place.returnsOf, hopens]
  · have hkind : stmt.isReturn = false ∧ ∀ i, stmt.node.form.isBlockPart i = false := by
      simp only [Place.opensBody, Place.isFunction, Place.isClass, Place.isReturn] at hopens ⊢
      cases hform : stmt.node.form <;>
        simp_all [Form.isSimple, Form.isFlow, Form.isStatement, Form.isBlockPart, Form.colon?]
    rw [returnsOf_singleton (by simpa using hopens), hkind.1,
      returnsOf_children_eq_nil h hstmt hkind.2]
    rfl

/-- A `return` has no other one in it. -/
theorem Module.returnsOf_of_isReturn (hreturn : stmt.isReturn = true) :
    Place.returnsOf [stmt] = [stmt] := by
  have hkind : stmt.opensBody = false ∧ ∀ i, stmt.node.form.isBlockPart i = false := by
    simp only [Place.opensBody, Place.isFunction, Place.isClass, Place.isLambda,
      Place.isReturn] at hreturn ⊢
    cases hform : stmt.node.form <;> simp_all [Form.isBlockPart, Form.colon?]
  rw [returnsOf_singleton hkind.1, hreturn, returnsOf_children_eq_nil h hstmt hkind.2]
  rfl

/-- The `return` statements of a `with` are those of its body. -/
theorem Module.returnsOf_of_withStmt {items body : List Place}
    (hform : stmt.form = .withStmt isAsync items body)
    (hitems : ∀ item ∈ items, item.isManager = true) :
    Place.returnsOf [stmt] = Place.returnsOf body := by
  have hopens : stmt.opensBody = false := by rw [opensBody_form, hform]
  have hreturn : stmt.isReturn = false := by rw [isReturn_form, hform]
  have hchildren : stmt.children = items ++ body := by rw [← parts_form, hform]; rfl
  have hnone : Place.returnsOf items = [] := by
    rw [eq_nil_iff_forall_not_mem]
    intro r hr
    simp only [Place.returnsOf, mem_filter, mem_flatMap] at hr
    obtain ⟨⟨item, hitem, hmem⟩, hreturn⟩ := hr
    have hchild : item ∈ stmt.children := by simp [hchildren, hitem]
    have hwalk := mem_walk_of_mem_children hstmt hchild
    have hsimple : item.node.form.isSimple = true := by
      have hmanager := hitems item hitem
      unfold Place.isManager at hmanager
      cases hnode : item.node.form <;> simp_all [Form.isSimple, Form.isFlow, Form.isStatement]
    have hempty := returnsOf_of_isSimple h hwalk hsimple
    rw [Place.returnsOf, flatMap_cons, flatMap_nil, append_nil, filter_eq_nil_iff] at hempty
    exact hempty r hmem hreturn
  rw [returnsOf_singleton hopens, hreturn, if_neg (by simp), hchildren, returnsOf_append, hnone,
    nil_append, nil_append]

omit hstmt

/-- A path that ends in a `return` passes no earlier one that is certain. -/
theorem Path.passes {stmts : List Place} {ending : Ending} (hpath : Path stmts ending)
    (hstmts : ∀ stmt ∈ stmts, stmt ∈ (Place.root tree m).walk) : ending.Passes stmts := by
  have hparts {stmt : Place} {stmts : List Place}
    (hstmt : ∀ p ∈ [stmt], p ∈ (Place.root tree m).walk)
      (hsub : stmts ⊆ stmt.children) : ∀ p ∈ stmts, p ∈ (Place.root tree m).walk :=
    fun p hp => mem_walk_of_mem_children (hstmt stmt (by simp)) (hsub hp)
  have hfork {stmt : Place} {block : List Place} {ending : Ending}
    (hstmt : ∀ p ∈ [stmt], p ∈ (Place.root tree m).walk)
      (hfork : stmt.form.isFork = true) (hsub : block ⊆ stmt.children)
      (ih : (∀ p ∈ block, p ∈ (Place.root tree m).walk) → ending.Passes block) :
        ending.Passes [stmt] :=
    passes_of_block h (hstmt stmt (by simp)) hfork hsub (ih (hparts hstmt hsub))
  induction hpath with
  | nil => simp [Ending.Passes, Place.returnsOf]
  | fail | broken | continued => trivial
  | @next stmt rest ending first others ihfirst ihothers =>
    obtain ⟨hstmt, hrest⟩ := forall_mem_cons.mp hstmts
    have hfirst : ∀ s ∈ Place.returnsOf [stmt], s.isCertain = false :=
      ihfirst (by simpa using hstmt)
    have hothers := ihothers hrest
    cases ending with
    | onward =>
      intro s hs
      rw [returnsOf_cons, mem_append] at hs
      exact hs.elim (hfirst s) (hothers s)
    | returned r =>
      obtain ⟨before, after, heq, hbefore⟩ := hothers
      refine ⟨Place.returnsOf [stmt] ++ before, after, by rw [returnsOf_cons, heq, append_assoc],
        ?_⟩
      intro s hs
      exact (mem_append.mp hs).elim (hfirst s) (hbefore s)
    | broken | continued | failed => trivial
  | @stop stmt rest ending first ne ih =>
    have hfirst := ih (by simpa using (forall_mem_cons.mp hstmts).1)
    cases ending with
    | onward => exact absurd rfl ne
    | returned r =>
      obtain ⟨before, after, heq, hbefore⟩ := hfirst
      exact ⟨before, after ++ Place.returnsOf rest, by rw [returnsOf_cons, heq]; simp, hbefore⟩
    | broken | continued | failed => trivial
  | @simple stmt form =>
    intro s hs
    rw [returnsOf_of_isSimple h (hstmts stmt (by simp)) form] at hs
    cases hs
  | @returned stmt value form =>
    have hreturn : stmt.isReturn = true := by rw [isReturn_form, form]
    exact ⟨[], [], returnsOf_of_isReturn h (hstmts stmt (by simp)) hreturn, by simp⟩
  | @ifStmt stmt test isElif body orElse branch ending form either inside ih =>
    have hsub : branch ⊆ stmt.children := by
      rw [← parts_form, form]
      rcases either with rfl | rfl <;> simp [Form.parts]
    exact hfork hstmts (by rw [form]; rfl) hsub ih
  | @withStmt stmt isAsync items body ending form managers inside ih =>
    have hsub : body ⊆ stmt.children := by
      rw [← parts_form, form]
      exact subset_append_right _ _
    have heq := returnsOf_of_withStmt h (hstmts stmt (by simp)) form managers
    exact (Ending.passes_congr heq).mpr (ih (hparts hstmts hsub))
  | done loop after ih =>
    obtain ⟨hloop, -, hsub⟩ := parts_of_loop? loop
    exact hfork hstmts hloop hsub ih
  | again loop inside goes others ihinside ihothers => exact ihothers hstmts
  | @leave stmt body orElse loop inside ih =>
    exact passes_of_isFork h (hstmts stmt (by simp)) (parts_of_loop? loop).1 (by simp)
  | interrupt loop inside ne ih =>
    obtain ⟨hloop, hsub, -⟩ := parts_of_loop? loop
    exact hfork hstmts hloop hsub ih
  | tryElse form inside after finally' _ ihafter ihfinally =>
    obtain ⟨htry, -, -, hafter, hfinal⟩ := parts_of_tryStmt form
    exact (hfork hstmts htry hafter ihafter).through (hfork hstmts htry hfinal ihfinally)
  | @handler stmt handler body handlers orElse final block type target ending last form inside mem
      handles caught finally' _ ihcaught ihfinally =>
    obtain ⟨htry, -, hhandlers, -, hfinal⟩ := parts_of_tryStmt form
    have hblock : block ⊆ handler.children := by
      rw [← parts_form, handles]
      exact subset_append_right _ _
    have hhandler : [handler] ⊆ stmt.children := by simpa using hhandlers mem
    have hopens : handler.opensBody = false := by rw [opensBody_form, handles]
    refine Ending.Passes.through (passes_of_isFork h (hstmts stmt (by simp)) htry ?_)
      (hfork hstmts htry hfinal ihfinally)
    rintro r rfl
    have hcaught := mem_returnsOf_of_subset hblock
      (ihcaught (hparts (hparts hstmts hhandler) hblock)).mem
    exact mem_returnsOf_of_subset hhandler (mem_returnsOf_singleton hopens hcaught)
  | tryBody form inside ne finally' ihinside ihfinally =>
    obtain ⟨htry, hinside, -, -, hfinal⟩ := parts_of_tryStmt form
    exact (hfork hstmts htry hinside ihinside).through (hfork hstmts htry hfinal ihfinally)

/-- A path through the body of a function that ends in a `return` leads past earlier ones that are
not certain. -/
theorem Module.returns_of_path {fn r : Place} (hfn : fn ∈ (Place.root tree m).walk)
    (hform : fn.form = .functionDef isAsync colon decorators name params returns body)
    (hpath : Path body (.returned r)) :
    ∃ before after, fn.returnStatements = before ++ r :: after ∧ ∀ s ∈ before, s.isCertain =
      false := by
  rw [returnStatements_eq hform]
  refine hpath.passes h fun stmt hstmt => mem_walk_of_mem_children hfn ?_
  exact body_subset hform hstmt

end

end NameInference

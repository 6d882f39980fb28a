import NameInference.Proofs.Scope.Index
import NameInference.Proofs.Span.Innermost

/-!
# Redirected names end in one step

A function that declares a name `global` or `nonlocal`, at any depth of its own statements, holds no
binding of the name. The index lists the bindings that stand in the function for the module, or for
the function around it, or for the scope that this one passes the name on to. No such scope passes
the name on again.
-/

namespace NameInference

open List Place

variable {v : IndexVisit}

namespace Node

variable {f n : Node} {d : Bool × Text}

/-- The statements and handlers of the function `f` that are in no definition inside it. -/
inductive Runs (f : Node) : Node → Prop
  | body {isAsync colon decorators name params returns body stmt}
      (form : f.form = .functionDef isAsync colon decorators name params returns body)
        (mem : stmt ∈ body) : Runs f stmt
  | ifStmt {outer isElif test body orElse stmt} (runs : Runs f outer)
      (form : outer.form = .ifStmt isElif test body orElse) (mem : stmt ∈ body ∨ stmt ∈ orElse) :
        Runs f stmt
  | whileStmt {outer test body orElse stmt} (runs : Runs f outer)
      (form : outer.form = .whileStmt test body orElse) (mem : stmt ∈ body ∨ stmt ∈ orElse) :
        Runs f stmt
  | forStmt {outer isAsync target iterable body orElse stmt} (runs : Runs f outer)
      (form : outer.form = .forStmt isAsync target iterable body orElse)
      (mem : stmt ∈ body ∨ stmt ∈ orElse) : Runs f stmt
  | tryStmt {outer body handlers orElse final stmt} (runs : Runs f outer)
      (form : outer.form = .tryStmt body handlers orElse final)
      (mem : stmt ∈ body ∨ stmt ∈ handlers ∨ stmt ∈ orElse ∨ stmt ∈ final) : Runs f stmt
  | handler {outer type target body stmt} (runs : Runs f outer)
      (form : outer.form = .handler type target body) (mem : stmt ∈ body) : Runs f stmt
  | withStmt {outer isAsync items body stmt} (runs : Runs f outer)
      (form : outer.form = .withStmt isAsync items body) (mem : stmt ∈ body) : Runs f stmt

theorem Runs.of_mem_ownBlocks (h : f.Runs n) {stmt : Node} (hstmt : stmt ∈ ownBlocks n.form) :
    f.Runs stmt := by
  cases hform : n.form <;> simp only [hform, ownBlocks, mem_append, not_mem_nil] at hstmt
  case ifStmt => exact .ifStmt h hform hstmt
  case whileStmt => exact .whileStmt h hform hstmt
  case forStmt => exact .forStmt h hform hstmt
  case tryStmt => exact .tryStmt h hform (by tauto)
  case handler => exact .handler h hform hstmt
  case withStmt => exact .withStmt h hform hstmt

theorem mem_declarations :
    d ∈ n.declarations ↔ d ∈ declared n.form ∨
      ∃ stmt ∈ ownBlocks n.form, d ∈ stmt.declarations := by
  rw [declarations, flatMap_subtype (g := declarations) fun _ _ => rfl, unattach_attach, mem_append,
    mem_flatMap]

/-- The declarations of a statement are made by the statements that run with it. -/
theorem Runs.exists_declared (h : f.Runs n) (hd : d ∈ n.declarations) :
    ∃ stmt, f.Runs stmt ∧ d ∈ declared stmt.form := by
  induction n using declarations.induct with
  | case1 n ih =>
    rcases mem_declarations.mp hd with hd | ⟨stmt, hstmt, hd⟩
    · exact ⟨n, h, hd⟩
    · exact ih stmt hstmt (h.of_mem_ownBlocks hstmt) hd

/-- The declarations of a statement are among those of the body that it runs with. -/
theorem Runs.exists_mem_body (h : f.Runs n) (hd : d ∈ n.declarations) :
    ∃ isAsync colon decorators name params returns body,
      f.form = .functionDef isAsync colon decorators name params returns body ∧
      d ∈ body.flatMap declarations := by
  induction h with
  | body form mem => exact ⟨_, _, _, _, _, _, _, form, mem_flatMap.mpr ⟨_, mem, hd⟩⟩
  | ifStmt _ form mem ih | whileStmt _ form mem ih | forStmt _ form mem ih =>
    exact ih (mem_declarations.mpr (Or.inr ⟨_, by simpa [form, ownBlocks] using mem, hd⟩))
  | tryStmt _ form mem ih =>
    refine ih (mem_declarations.mpr (Or.inr ⟨_, ?_, hd⟩))
    simp only [form, ownBlocks, mem_append]
    tauto
  | handler _ form mem ih | withStmt _ form mem ih =>
    exact ih (mem_declarations.mpr (Or.inr ⟨_, by simpa [form, ownBlocks] using mem, hd⟩))

theorem mem_declared {isGlobal : Bool} {x : Text} {form : Form Node} :
    (isGlobal, x) ∈ declared form ↔
      ∃ names, form = (if isGlobal then .globalStmt names else .nonlocalStmt names) ∧
      ∃ name ∈ names, name.id? = some x := by
  cases form <;> cases isGlobal <;> simp [declared]

end Node

namespace Place

variable {p f s t root : Place} {x : Text} {isGlobal : Bool}

/-- The function declares the name `global` or `nonlocal` in a statement of its own. -/
def Declares (f : Place) (isGlobal : Bool) (x : Text) : Prop :=
  ∃ stmt names, f.node.Runs stmt ∧
    stmt.form = (if isGlobal then .globalStmt names else .nonlocalStmt names) ∧
    ∃ name ∈ names, name.id? = some x

theorem declares_iff :
    f.Declares isGlobal x ↔ (isGlobal, x) ∈ f.functionBody.flatMap Node.declarations := by
  constructor
  · rintro ⟨stmt, names, hruns, hform, hname⟩
    have hd := Node.mem_declarations.mpr (Or.inl (Node.mem_declared.mpr ⟨names, hform, hname⟩))
    obtain ⟨_, _, _, _, _, _, body, hbody, hmem⟩ := hruns.exists_mem_body hd
    rwa [functionBody, hbody]
  · intro hmem
    obtain ⟨stmt, hstmt, hd⟩ := mem_flatMap.mp hmem
    rw [functionBody] at hstmt
    split at hstmt
    · next hform =>
      obtain ⟨stmt, hruns, hd⟩ := (Node.Runs.body hform hstmt).exists_declared hd
      obtain ⟨names, hform, hname⟩ := Node.mem_declared.mp hd
      exact ⟨stmt, names, hruns, hform, hname⟩
    · cases hstmt

/-- A name that is declared in one way is declared so by the last declaration. -/
theorem declaredGlobal?_eq (h : f.Declares isGlobal x) (hother : ¬ f.Declares (!isGlobal) x)
    (houter : isGlobal = false → f.outerFunction?.isSome = true) :
    f.declaredGlobal? x = some isGlobal := by
  rw [declares_iff] at h hother
  rw [declaredGlobal?]
  generalize f.functionBody.flatMap Node.declarations = all at h hother
  generalize hlist : List.filter _ all = kept
  have hkept (d : Bool × Text) : d ∈ kept ↔ d ∈ all ∧ d.2 = x ∧
      (d.1 = true ∨ f.outerFunction?.isSome = true) := by
    simp [← hlist, mem_filter]
  have hmem : (isGlobal, x) ∈ kept := (hkept _).mpr ⟨h, rfl, by cases isGlobal <;> simp_all⟩
  obtain ⟨last, hlast⟩ := Option.isSome_iff_exists.mp (getLast?_isSome.mpr (ne_nil_of_mem hmem))
  obtain ⟨global, name⟩ := last
  obtain ⟨hlastMem, rfl, -⟩ := (hkept _).mp (mem_of_getLast? hlast)
  have hsame : global = isGlobal := by
    by_contra hne
    rw [Bool.eq_not.mpr hne] at hlastMem
    exact hother hlastMem
  rw [hlast, ← hsame]
  rfl

theorem mem_alongWay_of_governorAlong {tree : Nat} {start : Position} {paramName flows : Bool}
    {above : List (Nat × Node)} (h : governorAlong tree start paramName flows above = some s) :
    s ∈ alongWay tree above := by
  induction above with
  | nil => cases h
  | cons step rest ih =>
    rw [governorAlong] at h
    rw [alongWay]
    split at h
    · cases h
      exact mem_cons_self
    · exact mem_cons_of_mem _ (ih h)

section

variable (hroot : root.above = [])

include hroot

theorem mem_walk_of_scope? (hp : p ∈ root.walk) (h : p.scope? = some s) : s ∈ root.walk :=
  (mem_walk_of_mem_upwards hroot hp (mem_cons_of_mem _ (mem_alongWay_of_governorAlong h))).1

theorem mem_walk_of_scopeBeyond? {skip : Place → Bool} (hp : p ∈ root.walk)
    (h : p.scopeBeyond? skip = some s) :
    s ∈ root.walk := by
  fun_induction scopeBeyond? skip p with
  | case1 => cases h
  | case2 p q hq _ ih => exact ih (mem_walk_of_scope? hroot hp hq) h
  | case3 p q hq _ =>
    cases h
    exact mem_walk_of_scope? hroot hp hq

theorem mem_walk_of_outerFunction? (hp : p ∈ root.walk) (h : p.outerFunction? = some s) :
    s ∈ root.walk :=
  mem_walk_of_scopeBeyond? hroot hp (Option.filter_eq_some_iff.mp h).1

theorem top_eq_root (hp : p ∈ root.walk) : p.top = root := by
  refine walk_induction (P := fun p => p.top = root) (fun a ha child hchild => ?_) ?_ p hp
  · rw [top, (exists_of_mem_children hchild).2, getLastD_cons]
    exact ha
  · rw [top, ancestors, hroot]
    rfl

omit hroot in
/-- What is no function passes no name on. -/
theorem redirect?_of_not_isFunction (h : p.isFunction = false) : p.redirect? x = none := by
  have hbody : p.functionBody = [] := by
    rw [functionBody]
    split
    · next hform => simp [isFunction, hform] at h
    · rfl
  rw [redirect?, declaredGlobal?, hbody]
  rfl

omit hroot in
theorem redirect?_of_global (h : p.declaredGlobal? x = some true) : p.redirect? x = some p.top := by
  rw [redirect?, h]

omit hroot in
theorem redirect?_of_nonlocal {outer : Place} (h : p.declaredGlobal? x = some false)
    (houter : p.outerFunction? = some outer) :
    p.redirect? x = some ((outer.redirect? x).getD outer) := by
  rw [redirect?, h]
  simp only
  split
  · next hnone => cases hnone.symm.trans houter
  · next g hg =>
    cases hg.symm.trans houter
    rfl

/-- The scope that a name is passed on to is in the tree and does not pass it on. -/
theorem redirect?_redirect? (hmodule : root.isFunction = false) (hp : p ∈ root.walk)
    (h : p.redirect? x = some t) :
    t ∈ root.walk ∧ t.redirect? x = none := by
  fun_induction redirect? p x generalizing t with
  | case1 | case3 => cases h
  | case2 p =>
    cases h
    rw [top_eq_root hroot hp]
    exact ⟨root.mem_walk_self, redirect?_of_not_isFunction hmodule⟩
  | case4 p _ outer houter ih =>
    cases h
    have hwalk := mem_walk_of_outerFunction? hroot hp houter
    cases hnext : outer.redirect? x with
    | none => exact ⟨hwalk, hnext⟩
    | some t => exact ih hwalk hnext

end

end Place

/-- What a step adds or visits belongs to a scope below the root. -/
def IndexStep.Below (root : Place) : IndexStep → Prop
  | add (.binding b) => b.scope ∈ root.walk
  | add _ => True
  | visit _ v => v.scope ∈ root.walk

namespace Place

variable {p scope root : Place}

theorem below_visiting (h : v.scope ∈ root.walk) (child : Place) :
    ∀ step ∈ visiting v child, step.Below root := by
  intro step hstep
  rw [mem_singleton.mp hstep]
  exact h

theorem below_bindingEntry (h : scope ∈ root.walk) (name definition : Place) (kind : BindingKind) :
    ∀ step ∈ bindingEntry name definition kind scope, step.Below root := by
  intro step hstep
  rw [bindingEntry] at hstep
  split at hstep
  · rw [mem_singleton.mp hstep]
    exact h
  · cases hstep

theorem below_paramEntry (h : scope ∈ root.walk) (q : Place) :
    ∀ step ∈ paramEntry scope q, step.Below root := by
  rw [paramEntry]
  split
  · exact below_bindingEntry h _ _ _
  · simp

theorem below_itemEntry (h : scope ∈ root.walk) (kind : BindingKind) (q : Place) :
    ∀ step ∈ itemEntry kind scope q, step.Below root := by
  rw [itemEntry]
  split
  · exact below_bindingEntry h _ _ _
  · simp

theorem below_selfEntry (definition : Place) (kind : BindingKind) (frame : Option MethodFrame)
    (value : Place) (name : Text) :
    ∀ step ∈ selfEntry p definition kind frame value name, step.Below root := by
  intro step hstep
  unfold selfEntry at hstep
  split at hstep
  · split at hstep
    · rw [mem_singleton.mp hstep]
      trivial
    · cases hstep
  · cases hstep

theorem below_flatMap {α : Type} {xs : List α} {steps : α → List IndexStep}
    (h : ∀ x, ∀ step ∈ steps x, step.Below root) : ∀ step ∈ xs.flatMap steps, step.Below root := by
  intro step hstep
  obtain ⟨x, -, hstep⟩ := mem_flatMap.mp hstep
  exact h x step hstep

theorem below_planClauses {outer : Place} (hp : p ∈ root.walk) (houter : outer ∈ root.walk)
    (clauses : List (Clause Place)) : ∀ step ∈ planClauses p outer clauses, step.Below root := by
  induction clauses generalizing outer with
  | nil => simp [planClauses]
  | cons c rest ih =>
    simp only [planClauses, forall_mem_append]
    exact ⟨⟨⟨below_visiting houter _, below_visiting hp _⟩, below_flatMap (below_visiting hp)⟩,
      ih hp⟩

section

variable (hroot : root.above = []) (hp : p ∈ root.walk) (hscope : scope ∈ root.walk)

include hroot hp hscope

theorem below_planExpression : ∀ step ∈ planExpression p scope, step.Below root := by
  rw [planExpression]
  split
  · simp only [forall_mem_append]
    refine ⟨below_flatMap fun q => ?_, below_visiting hp _⟩
    exact forall_mem_append.mpr ⟨below_visiting hscope q, below_paramEntry hp q⟩
  · simp only [forall_mem_append]
    exact ⟨⟨below_planClauses hp hscope _, below_visiting hp _⟩, below_flatMap (below_visiting hp)⟩
  · refine forall_mem_append.mpr ⟨?_, below_visiting hscope _⟩
    split
    · next owner howner =>
      refine below_bindingEntry ?_ _ _ _
      rw [beyondComprehensions?] at howner
      split at howner
      · exact mem_walk_of_scopeBeyond? hroot hscope howner
      · cases howner
        exact hscope
    · simp
  · exact below_flatMap (below_visiting hscope)

theorem below_planTarget (definition : Place) (kind : BindingKind) (frame : Option MethodFrame) :
    ∀ step ∈ planTarget p definition kind scope frame, step.Below root := by
  rw [planTarget]
  split
  · exact below_bindingEntry hscope _ _ _
  · exact below_flatMap (below_visiting hscope)
  · exact below_flatMap (below_visiting hscope)
  · exact below_visiting hscope _
  · exact forall_mem_append.mpr ⟨below_selfEntry _ _ _ _ _, below_visiting hscope _⟩
  · exact below_planExpression hroot hp hscope

omit hroot in
theorem below_planStatement (frame : Option MethodFrame) :
    ∀ step ∈ planStatement p scope frame, step.Below root := by
  have hexpr := below_visiting (v := ⟨.expression, scope, none⟩) hscope
  have hexprs {xs : List Place} : ∀ step ∈ xs.flatMap (visiting ⟨.expression, scope, none⟩),
    step.Below root :=
    below_flatMap hexpr
  have hblocks {xs : List Place} : ∀ step ∈ xs.flatMap (visiting ⟨.statement, scope, frame⟩),
    step.Below root :=
    below_flatMap (below_visiting hscope)
  rw [planStatement]
  split <;> try simp only [forall_mem_append]
  -- functionDef
  · exact ⟨⟨⟨⟨hexprs, below_bindingEntry hscope _ _ _⟩, below_flatMap (below_visiting hscope)⟩,
      below_flatMap (below_paramEntry hp)⟩, below_flatMap (below_visiting hp)⟩
  -- classDef
  · exact ⟨⟨⟨hexprs, hexprs⟩, below_bindingEntry hscope _ _ _⟩, below_flatMap (below_visiting hp)⟩
  -- assign
  · exact ⟨hexprs, below_flatMap (below_visiting hscope)⟩
  -- augAssign
  · exact ⟨hexpr _, below_visiting hscope _⟩
  -- forStmt
  · exact ⟨⟨⟨hexpr _, below_visiting hscope _⟩, hblocks⟩, hblocks⟩
  -- whileStmt
  · exact ⟨⟨hexpr _, hblocks⟩, hblocks⟩
  -- ifStmt
  · exact ⟨⟨hexpr _, hblocks⟩, hblocks⟩
  -- tryStmt
  · exact ⟨⟨⟨hblocks, hblocks⟩, hblocks⟩, hblocks⟩
  -- handler
  · exact ⟨⟨hexprs, below_flatMap fun _ => below_bindingEntry hscope _ _ _⟩, hblocks⟩
  -- withStmt
  · exact ⟨hblocks, hblocks⟩
  -- withItem
  · exact ⟨hexpr _, below_flatMap (below_visiting hscope)⟩
  -- importStmt
  · exact below_flatMap (below_itemEntry hscope _)
  -- importFrom
  · split
    · intro step hstep
      rw [mem_singleton.mp hstep]
      trivial
    · exact below_flatMap (below_itemEntry hscope _)
  -- globalStmt, nonlocalStmt
  · simp
  · simp
  -- other forms
  · exact hexprs

end

theorem below_plan (hroot : root.above = []) (hp : p ∈ root.walk) (hv : v.scope ∈ root.walk) :
    ∀ step ∈ p.plan v, step.Below root := by
  rw [plan]
  split
  · exact below_planStatement hp hv _
  · exact below_planExpression hroot hp hv
  · exact below_planTarget hroot hp hv _ _ _
  · split
    · exact below_flatMap (below_visiting hv)
    · simp

/-- The bindings that a visit finds belong to scopes below the root. -/
theorem scope_mem_walk_of_mem_entriesOf (hroot : root.above = []) (hp : p ∈ root.walk)
    (hv : v.scope ∈ root.walk) {b : Binding} (hb : .binding b ∈ p.entriesOf v) :
    b.scope ∈ root.walk := by
  induction p, v using entriesOf.induct with
  | case1 p v ih =>
    rw [entriesOf] at hb
    obtain ⟨step, hstep, hb⟩ := mem_flatMap.mp hb
    have hbelow := below_plan hroot hp hv step hstep
    cases step with
    | add entry =>
      cases mem_singleton.mp hb
      exact hbelow
    | visit i w =>
      simp only at hb
      split at hb
      · next hi => exact ih i w hi (mem_walk_of_mem_children hp (getElem_mem hi)) hbelow hb
      · cases hb

theorem scope_mem_walk_of_mem_moduleEntries (hroot : root.above = []) {b : Binding}
    (hb : .binding b ∈ root.moduleEntries) : b.scope ∈ root.walk := by
  obtain ⟨child, hchild, hb⟩ := mem_flatMap.mp hb
  exact scope_mem_walk_of_mem_entriesOf hroot (mem_walk_of_mem_children root.mem_walk_self hchild)
    root.mem_walk_self hb

end Place

namespace Module

variable {m : Module}

/-- The tree of the module is read from tokens. -/
def IsParsed (m : Module) : Prop :=
  ∃ tokens parsed, ofTokens tokens = .ok parsed ∧ m.root = parsed.root

theorem isParsed_of_ofSource {source : Source} (h : ofSource source = .ok m) : m.IsParsed := by
  obtain ⟨tokens, -, h⟩ := exists_of_bind_eq_ok h
  obtain ⟨parsed, hparsed, h⟩ := exists_of_bind_eq_ok h
  cases h
  exact ⟨tokens, parsed, hparsed, rfl⟩

theorem IsParsed.isFunction_root (h : m.IsParsed) (tree : Nat) :
    (Place.root tree m).isFunction = false := by
  obtain ⟨tokens, parsed, hparsed, hroot⟩ := h
  obtain ⟨⟨body, last⟩, -, hparsed⟩ := exists_of_bind_eq_ok hparsed
  cases hparsed
  rw [Place.isFunction, Place.root, hroot]
  rfl

end Module

namespace ScopeIndex

variable {root f t : Place} {x : Text} {b : Binding}

/-- What counts for a scope stands in it, where the name is not passed on, or is passed on to it. -/
theorem home_eq_iff :
    home b = t ↔ b.scope.redirect? b.id = some t ∨ b.scope.redirect? b.id = none ∧ b.scope = t := by
  rw [home]
  cases b.scope.redirect? b.id <;> simp

theorem mem_lookup_home (hb : .binding b ∈ root.moduleEntries) :
    b ∈ (ofModule root).lookup (home b) b.id :=
  mem_listed.mp ((listed_ofModule root).mem_iff.mpr (mem_flatMap.mpr ⟨_, hb, mem_singleton_self _⟩))

section

variable (hroot : root.above = []) (hmodule : root.isFunction = false)

include hroot hmodule

theorem home_mem_walk (hb : .binding b ∈ root.moduleEntries) : home b ∈ root.walk := by
  have hscope := scope_mem_walk_of_mem_moduleEntries hroot hb
  rcases home_eq_iff.mp rfl with hnext | ⟨-, hself⟩
  · exact (redirect?_redirect? hroot hmodule hscope hnext).1
  · rwa [← hself]

/-- No binding is listed for a scope that passes the name on. -/
theorem lookup_of_redirect? (hf : f ∈ root.walk) (h : f.redirect? x = some t) :
    (ofModule root).lookup f x = [] := by
  refine eq_nil_iff_forall_not_mem.mpr fun b hb => ?_
  obtain ⟨hentry, hlisted⟩ := binding_mem_moduleEntries (mem_listed.mpr hb)
  obtain ⟨hkey, rfl⟩ := Prod.mk.inj hlisted
  have hhome := inj_on_of_nodup_map root.nodup_walk hf (home_mem_walk hroot hmodule hentry) hkey
  rcases home_eq_iff.mp hhome.symm with hnext | ⟨hnone, rfl⟩
  · have hscope := scope_mem_walk_of_mem_moduleEntries hroot hentry
    cases h.symm.trans (redirect?_redirect? hroot hmodule hscope hnext).2
  · cases h.symm.trans hnone

end

/-- A binding that stands in a scope which passes its name on is listed where the name goes. -/
theorem mem_lookup_of_redirect? (hroot : root.above = []) (hf : f ∈ root.walk)
    (h : f.redirect? x = some t) (hb : .binding b ∈ root.moduleEntries) (hid : b.id = x)
    (hscope : b.scope.same f = true) :
    b ∈ (ofModule root).lookup t x := by
  have hwalk := scope_mem_walk_of_mem_moduleEntries hroot hb
  have hself : b.scope = f := inj_on_of_nodup_map root.nodup_walk hwalk hf (beq_iff_eq.mp hscope)
  have hhome : home b = t := home_eq_iff.mpr (Or.inl (by rw [hself, hid, h]))
  rw [← hhome, ← hid]
  exact mem_lookup_home hb

/-- What binds a name in a function is an entry for the function. -/
theorem exists_entry_of_isBound {source : Source} {m : Module} (h : Module.ofSource source = .ok m)
    (tree : Nat) {p : Place} (hp : p ∈ (Place.root tree m).walk) (hbound : p.isBound = true)
    (hread : p.isUnread = false) (hid : p.id? = some x) (hscope : p.scope? = some f)
    (hf : f.isFunction = true) :
    ∃ b, .binding b ∈ (Place.root tree m).moduleEntries ∧ b.name = p ∧ b.id = x ∧ b.scope = f := by
  obtain ⟨howned, hnames⟩ := Module.entries_of_ofSource h tree
  have hmem : p ∈ (Place.root tree m).boundNames := mem_filter.mpr ⟨hp, by simp [hbound, hread]⟩
  obtain ⟨entry, hentry, hname⟩ := mem_filterMap.mp (hnames.mem_iff.mpr hmem)
  cases entry with
  | binding b =>
    obtain rfl : b.name = p := Option.some.inj hname
    obtain ⟨hid', howner⟩ := howned b hentry
    have hno : f.isComprehension = false := by
      rw [Place.isFunction] at hf
      rw [Place.isComprehension]
      split at hf <;> simp_all
    have hbeyond : b.name.scopeBeyond? Place.isComprehension = some f := by
      rw [scopeBeyond?_of_scope? hscope, Place.beyondComprehensions?, if_neg (by simp [hno])]
    rw [hbeyond, hscope, ite_self] at howner
    exact ⟨b, hentry, rfl, Option.some.inj (hid'.symm.trans hid), (Option.some.inj howner).symm⟩
  | selfAttribute | starImport => cases hname

/-- How a module treats a name that the function `f` passes on to the scope `t`. -/
structure PassesOn (tree : Nat) (m : Module) (f t : Place) (x : Text) : Prop where
  /-- The function does not hold the name. -/
  redirected : isRedirected f x = true
  /-- No binding of the name is listed for the function. -/
  unlisted : (ofModule (Place.root tree m)).lookup f x = []
  /-- The bindings of the name that stand in the function are listed for the other scope. -/
  listed : ∀ b, .binding b ∈ (Place.root tree m).moduleEntries → b.id = x → b.scope.same f = true →
    b ∈ (ofModule (Place.root tree m)).lookup t x
  /-- In a module of one source, every name in the function that binds, hints apart, is listed
  there. -/
  named : ∀ source, Module.ofSource source = .ok m →
    ∀ p ∈ (Place.root tree m).walk, p.isBound = true →
    p.isUnread = false → p.id? = some x → p.scope? = some f →
    ∃ b ∈ (ofModule (Place.root tree m)).lookup t x, b.name = p ∧ b.scope = f
  /-- The other scope holds the name itself. -/
  final : isRedirected t x = false

theorem passesOn_of_redirect? {m : Module} (h : m.IsParsed) (tree : Nat)
    (hf : f ∈ (Place.root tree m).walk) (hnext : f.redirect? x = some t) :
    PassesOn tree m f t x := by
  have hmodule := h.isFunction_root tree
  have hlisted : ∀ b, .binding b ∈ (Place.root tree m).moduleEntries → b.id = x →
      b.scope.same f = true → b ∈ (ofModule (Place.root tree m)).lookup t x :=
    fun b hb hid hscope => mem_lookup_of_redirect? rfl hf hnext hb hid hscope
  refine ⟨by rw [isRedirected, hnext]; rfl, lookup_of_redirect? rfl hmodule hf hnext, hlisted, ?_,
    ?_⟩
  · intro source hsource p hp hbound hread hid hscope
    have hfunction : f.isFunction = true := by
      by_contra hno
      cases (redirect?_of_not_isFunction (Bool.eq_false_iff.mpr hno)).symm.trans hnext
    obtain ⟨b, hb, hname, hbid, hbscope⟩ :=
      exists_entry_of_isBound hsource tree hp hbound hread hid hscope hfunction
    exact ⟨b, hlisted b hb hbid (by simp [hbscope, Place.same]), hname, hbscope⟩
  · rw [isRedirected, (redirect?_redirect? rfl hmodule hf hnext).2]
    rfl

end ScopeIndex

/-- In a parsed module, a function that declares a name `global` passes it on to the module, and one
that declares it `nonlocal` to the function around it, classes skipped, or to the scope that this
one passes the name on to. -/
theorem ScopeIndex.passesOn_of_declares {m : Module} (h : m.IsParsed) (tree : Nat) {f t : Place}
    {x : Text} {isGlobal : Bool} (hf : f ∈ (Place.root tree m).walk)
    (hdeclares : f.Declares isGlobal x) (hother : ¬ f.Declares (!isGlobal) x)
    (ht : isGlobal = true ∧ t = Place.root tree m ∨
      isGlobal = false ∧ ∃ g, f.scopesAround.find? (fun s => !s.isClass) = some g ∧
      g.isFunction = true ∧ t = (g.redirect? x).getD g) :
    PassesOn tree m f t x := by
  refine passesOn_of_redirect? h tree hf ?_
  rcases ht with ⟨rfl, rfl⟩ | ⟨rfl, g, hfind, hg, rfl⟩
  · have hdeclared := declaredGlobal?_eq hdeclares hother (by simp)
    rw [redirect?_of_global hdeclared, top_eq_root rfl hf]
  · have houter : f.outerFunction? = some g := by
      rw [Place.outerFunction?, ← find?_scopesAround, hfind]
      exact Option.filter_some_pos hg
    have hdeclared := declaredGlobal?_eq hdeclares hother (fun _ => by rw [houter]; rfl)
    exact redirect?_of_nonlocal hdeclared houter

/-- A method whose branch declares a name of the function around its class, which declares it
itself. -/
def Source.chainSample : Source :=
  ⟨"def a():\n x = 0\n def b():\n  nonlocal x\n  class K:\n   def c():\n" ++
    "    if x:\n     nonlocal x\n    x = 1\n", []⟩

theorem ScopeIndex.passesOn_of_declares_chainSample :
    ∃ m, Module.ofSource .chainSample = .ok m ∧ ∃ f ∈ (Place.root 0 m).walk, ∃ g t,
      f.Declares false "x" ∧ ¬ f.Declares true "x" ∧
      f.scopesAround.find? (fun s => !s.isClass) = some g ∧ g.isFunction = true ∧
      g.redirect? "x" = some t ∧ t.isFunction = true ∧
      (∃ b, .binding b ∈ (Place.root 0 m).moduleEntries ∧ b.id = ("x" : Text) ∧
        b.scope.same f = true) ∧
      PassesOn 0 m f t "x" := by
  have hfound : (Module.ofSource .chainSample).map (fun m =>
      (Place.root 0 m).walk.any fun f =>
        f.functionBody.flatMap Node.declarations == [(false, ("x" : Text))] &&
        (f.scopesAround.find? fun s => !s.isClass).any (fun g =>
          g.isFunction && (g.redirect? "x").any Place.isFunction) &&
        (Place.root 0 m).moduleEntries.any fun entry =>
          entry.listing.any fun e => e.2.id == "x" && e.2.scope.same f) = .ok true := by
    decide +kernel
  obtain ⟨m, h, hany⟩ := exists_of_map_eq_ok hfound
  obtain ⟨f, hf, hfound⟩ := any_eq_true.mp hany
  simp only [Bool.and_eq_true, beq_iff_eq, Option.any_eq_true, any_eq_true] at hfound
  obtain ⟨⟨hdeclared, g, hg, hfunction, t, ht, htarget⟩, entry, hentry, ⟨key, b⟩, hb, hbinds⟩ :=
    hfound
  have hdeclares : f.Declares false "x" := declares_iff.mpr (by simp [hdeclared])
  have hother : ¬ f.Declares true "x" := fun hd => by simpa [hdeclared] using declares_iff.mp hd
  refine ⟨m, h, f, hf, g, t, hdeclares, hother, hg, hfunction, ht, htarget, ?_, ?_⟩
  · cases entry with
    | binding b' =>
      cases mem_singleton.mp hb
      exact ⟨b, hentry, hbinds⟩
    | selfAttribute | starImport => cases hb
  · exact passesOn_of_declares (Module.isParsed_of_ofSource h) 0 hf hdeclares hother
      (Or.inr ⟨rfl, g, hg, hfunction, by rw [ht]; rfl⟩)

end NameInference

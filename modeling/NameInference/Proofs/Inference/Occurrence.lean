import NameInference.Proofs.Inference.Selection
import NameInference.Proofs.Scope.Entries
import NameInference.Proofs.Scope.Redirection
import NameInference.Proofs.Session.Loading
import NameInference.Proofs.Unpack.Assignment

/-!
# Occurrences that bind a name

A name that is asked for where it is bound is looked up among the bindings of its scope. If its
binding is listed there, the answer is what the binding gives. A binding that is listed for another
scope is not found: names that are declared global or nonlocal, and names that `:=` binds in a
comprehension, are looked up like names that are read.
-/

namespace NameInference

open List Place ScopeIndex

namespace Place

variable {p q : Place}

theorem opensBody_of_isComprehension (h : p.isComprehension = true) : p.opensBody = false := by
  unfold isComprehension at h
  split at h
  · next hform => simp [opensBody, isFunction, isClass, isLambda, hform]
  · cases h

/-- Comprehensions make no contexts. -/
theorem filter_opensBody_scopesAround (h : p.scopeBeyond? isComprehension = some q) :
    p.scopesAround.filter opensBody = (q :: q.scopesAround).filter opensBody := by
  fun_induction scopeBeyond? isComprehension p with
  | case1 => cases h
  | case2 p s hs hskip ih =>
    rw [scopesAround_of_scope? hs,
      filter_cons_of_neg (by simp [opensBody_of_isComprehension hskip]), ih h]
  | case3 p s hs hskip =>
    obtain rfl := Option.some.inj h
    rw [scopesAround_of_scope? hs]

theorem exists_scope?_of_scopeBeyond? {skip : Place → Bool} (h : p.scopeBeyond? skip = some q) :
    ∃ owner, p.scope? = some owner := by
  rw [scopeBeyond?] at h
  split at h
  · cases h
  · next owner howner => exact ⟨owner, howner⟩

end Place

section

variable {source : Source} {m : Module} (h : Module.ofSource source = .ok m) {n : Nat} {p : Place}

include h

theorem Module.nameAt?_start (hp : p ∈ (Place.root n m).walk) {id : Text}
    (hname : p.node.form = .name id) :
    (Place.root n m).nameAt? p.start id = some p := by
  rw [Place.nameAt?, deepestAt_start h hp hname]
  simp [Option.filter, Place.id?, Node.id?, hname]

end

namespace ScopeIndex

variable {source : Source} {m : Module} (h : Module.ofSource source = .ok m) {n : Nat}
  {b c : Binding} {key key' : PlaceKey × Text}

include h

/-- A name is in one listed binding. -/
theorem eq_of_listed (hb : (key, b) ∈ (ofModule (Place.root n m)).listed)
    (hc : (key', c) ∈ (ofModule (Place.root n m)).listed) (hsame : c.name.same b.name = true) :
    (key', c) = (key, b) := by
  have hname := (names_listed h n).mem_iff.mp (mem_map_of_mem hb)
  obtain ⟨hwalk, hkept⟩ := mem_filter.mp hname
  have hcount := countP_listed h n hwalk
  rw [if_pos hkept, countP_eq_length_filter] at hcount
  obtain ⟨e, he⟩ := length_eq_one_iff.mp hcount
  have hb' : (key, b) ∈ [e] := he ▸ mem_filter.mpr ⟨hb, by simp [Place.same]⟩
  have hc' : (key', c) ∈ [e] := he ▸ mem_filter.mpr ⟨hc, hsame⟩
  rw [mem_singleton.mp hb', mem_singleton.mp hc']

/-- A listed binding is found by its name exactly in the scope that it counts for. -/
theorem find?_lookup (hb : (key, b) ∈ (ofModule (Place.root n m)).listed) (scope : Place) :
    ((ofModule (Place.root n m)).lookup scope b.id).find? (·.name.same b.name) =
      if (home b).same scope then some b else none := by
  obtain ⟨-, hkey⟩ := binding_mem_moduleEntries hb
  have hfound {c : Binding} (hc : c ∈ (ofModule (Place.root n m)).lookup scope b.id)
      (hsame : c.name.same b.name = true) : (home b).key = scope.key ∧ c = b := by
    obtain ⟨hkey', hcb⟩ := Prod.mk.inj (eq_of_listed h hb (mem_listed.mpr hc) hsame)
    exact ⟨(congrArg Prod.fst (hkey'.trans hkey)).symm, hcb⟩
  split
  · next hhome =>
    have hmem : b ∈ (ofModule (Place.root n m)).lookup scope b.id := by
      rw [lookup, ← beq_iff_eq.mp hhome]
      exact mem_listed.mp (hkey ▸ hb)
    have hself : b.name.same b.name = true := BEq.rfl
    obtain ⟨c, hc⟩ := Option.isSome_iff_exists.mp
      (find?_isSome (p := fun c : Binding => c.name.same b.name).mpr ⟨b, hmem, hself⟩)
    have hsame := find?_some (p := fun c : Binding => c.name.same b.name) hc
    rw [hc, (hfound (mem_of_find?_eq_some hc) hsame).2]
  · next hhome =>
    refine find?_eq_none.mpr fun c hc hsame => hhome ?_
    exact beq_iff_eq.mpr (hfound hc hsame).1

/-- The name of a listed binding that is no parameter is an occurrence that binds it. -/
theorem occurrence_of_listed (hb : (key, b) ∈ (ofModule (Place.root n m)).listed)
    (hkind : b.kind ≠ .param) :
    b.name ∈ (Place.root n m).walk ∧ b.name.node.form = .name b.id ∧ b.name.node.usage = .store ∧
      b.name.isParamName = false := by
  obtain ⟨hentry, -⟩ := binding_mem_moduleEntries hb
  have howned := (Module.entries_of_ofSource h n).1 b hentry
  have hname := (names_listed h n).mem_iff.mp (mem_map_of_mem hb)
  obtain ⟨hwalk, hkept⟩ := mem_filter.mp hname
  obtain ⟨hbound, -⟩ := Bool.and_eq_true_iff.mp hkept
  exact ⟨hwalk, form_eq_name howned.id, beq_iff_eq.mp (Bool.and_eq_true_iff.mp hbound).2,
    howned.isParamName hkind⟩

end ScopeIndex

theorem Session.Loaded.indexOf_eq {s : Session} {module : ValueId} {n : Nat} {m : Module}
    (h : s.Loaded module n m) {p : Place} (hp : p ∈ (Place.root n m).walk) :
    s.indexOf p = .ofModule (Place.root n m) := by
  rw [indexOf, show p.tree = n from tree_of_mem_walk hp, h.stored]
  rfl

namespace Infer

open Session

variable {calls : Calls} {s t : Session} {module context : ValueId} {n : Nat} {m : Module}
  {source : Source} {owner : Place} {b : Binding} {key : PlaceKey × Text}

/-- The values that an occurrence of a name has by the names that are seen there. -/
def inferSeen (context : ValueId) (name : Place) (id : Text) : Infer ValueSet := do
  inferNames (← findNames context id (some name.start) (some name))

section

variable (h : Module.ofSource source = .ok m) (hloaded : s.Loaded module n m)
  (hb : (key, b) ∈ (ScopeIndex.ofModule (Place.root n m)).listed)

include h hloaded hb

/-- In the context of its scope, an occurrence leads to its binding if that is listed for the scope.
-/
theorem bindingAt?_eq (hkind : b.kind ≠ .param) (howner : b.name.scope? = some owner)
    (hroot : s.values.root context = module)
    (hagain : contextOfScope module owner calls s = (.ok context, s)) :
    bindingAt? context b.id b.name calls s =
      (.ok (if (ScopeIndex.home b).same owner then some (b, context) else none), s) := by
  obtain ⟨hwalk, -⟩ := occurrence_of_listed h hb hkind
  have hquery : query (·.root context) calls s = (.ok module, s) :=
    congrArg (fun id => (Except.ok id, s)) hroot
  unfold bindingAt?
  rw [howner]
  dsimp only
  rw [bind_of_ok hquery, bind_of_ok hagain, bind_of_ok (inspect_run _), hloaded.indexOf_eq hwalk,
    find?_lookup h hb]
  split <;> rfl

/-- In the context of its scope, a name is asked for by way of its binding, or else looked up. -/
theorem inferFrom_start (hcalls : calls.Steady) (hs : s.Orderly) (hkind : b.kind ≠ .param)
    (howner : b.name.scope? = some owner)
    (hrun : contextOfScope module owner calls s = (.ok context, t)) :
    inferFrom context b.id b.name.start calls t =
      if (ScopeIndex.home b).same owner then inferBinding context b calls t
      else inferSeen context b.name b.id calls t := by
  obtain ⟨hwalk, hname, hstore, -⟩ := occurrence_of_listed h hb hkind
  obtain ⟨_, _, hfirst, hopens⟩ :=
    opens_contextOfScope calls hs (Values.settled_of_isModule hloaded.isModule).lt_size owner
  cases hfirst.symm.trans hrun
  have hlater := hloaded.evolves hopens.evolves
  have hroot : t.values.root context = module := by
    rw [hopens.root_eq, Values.root_of_isModule hloaded.isModule]
  have horigin : originAt? context b.id b.name.start calls t = (.ok (some b.name), t) := by
    rw [originAt?, inspect_run, hlater.treeOf?_of_root hroot, Option.bind_some]
    exact congrArg (fun found => (Except.ok found, t)) (Module.nameAt?_start h hwalk hname)
  have hbinding :=
    bindingAt?_eq h hlater hb hkind howner hroot
      (contextOfScope_again hcalls hs hloaded.isModule hrun)
  rw [inferFrom, bind_of_ok horigin]
  dsimp only
  rw [hstore, if_neg (by decide), bind_of_ok hbinding]
  split
  · dsimp only
    rw [if_neg (by simpa using hkind)]
  · rfl

/-- The context at an occurrence is that of its scope. -/
theorem contextAt_start (hkind : b.kind ≠ .param) (howner : b.name.scope? = some owner) :
    contextAt module b.name.start calls s = contextOfScope module owner calls s := by
  obtain ⟨hwalk, hname, -, hparam⟩ := occurrence_of_listed h hb hkind
  have hbeyond := Module.scopeBeyond?_eq_scopeAt h hwalk hname hparam
  have hscopes := filter_opensBody_scopesAround hbeyond
  rw [scopesAround_of_scope? howner] at hscopes
  rw [contextAt, bind_of_ok (inspect_run _), hloaded.treeOf?_eq, contextOfScope_eq, hscopes]
  rfl

end

/-- In every session that a module of a source text is loaded in, and in every later one, a name
that is asked for where it is bound has what the binding gives in the context of its scope if the
binding is listed for this scope. If the binding is listed for another scope, the name is looked up
there like one that is read. -/
theorem inferAt_of_listed {loaded : Session} {code path : Text} {names : List Text}
    (hload : loadSource code path names s = (.ok module, loaded)) (hlater : loaded.Evolves t)
    (ht : t.Orderly) (depth : Nat) :
    ∃ tree, t.treeOf? module = some tree ∧
      ∀ key b, (key, b) ∈ tree.index.get.listed → b.kind ≠ .param →
        ∃ owner, b.name.scope? = some owner ∧
          inferAt module b.id b.name.start (engine depth) t =
            (do
              let context ← contextOfScope module owner
              if (ScopeIndex.home b).same owner then inferBinding context b
              else inferSeen context b.name b.id) (engine depth) t := by
  obtain ⟨m, hm, hloaded⟩ := loaded_of_loadSource hload hlater ht.consistent
  refine ⟨_, hloaded.treeOf?_eq, fun key b hb hkind => ?_⟩
  obtain ⟨hwalk, hname, -, hparam⟩ := occurrence_of_listed hm hb hkind
  obtain ⟨owner, howner⟩ :=
    exists_scope?_of_scopeBeyond? (Module.scopeBeyond?_eq_scopeAt hm hwalk hname hparam)
  refine ⟨owner, howner, ?_⟩
  have hlt := (Values.settled_of_isModule hloaded.isModule).lt_size
  obtain ⟨context, u, hrun, -⟩ := opens_contextOfScope (engine depth) ht hlt owner
  rw [inferAt, bind_of_ok ((contextAt_start hm hloaded hb hkind howner).trans hrun),
    bind_of_ok hrun, inferFrom_start hm hloaded hb (steady_engine depth) ht hkind howner hrun]
  split <;> rfl

end Infer

/-- A source that lists a binding as the test asks for is loaded into a new session, in which
nothing is known yet. -/
theorem Session.exists_loaded_of_listed {source : Source}
    {test : Module → (PlaceKey × Text) × Binding → Bool}
    (hlisted : (Module.ofSource source).map (fun m =>
      ((Place.root 0 m).moduleEntries.flatMap IndexEntry.listing).any (test m)) = .ok true)
    (names : List Text) :
    ∃ m module loaded, Module.ofSource source = .ok m ∧
      loadSource source.text source.file names (Session.new {} {} false) = (.ok module, loaded) ∧
      loaded.Orderly ∧ loaded.Loaded module 0 m ∧ (∀ q, loaded.memo.find? q = none) ∧
      ∃ key b, (key, b) ∈ (ScopeIndex.ofModule (Place.root 0 m)).listed ∧
      test m (key, b) = true := by
  obtain ⟨m, h, hany⟩ := exists_of_map_eq_ok hlisted
  obtain ⟨⟨key, b⟩, hentry, htest⟩ := any_eq_true.mp hany
  obtain ⟨module, loaded, hload, horderly, hmemo, hloaded⟩ :=
    exists_loadSource (orderly_new {} {} false) h names
  refine ⟨m, module, loaded, h, hload, horderly, hloaded, fun q => ?_, key, b, ?_, htest⟩
  · rw [hmemo]
    exact Memo.find?_empty
  · exact (listed_ofModule (Place.root 0 m)).mem_iff.mpr hentry

/-- A function that binds a name. -/
def Source.ownSample : Source := ⟨"def f():\n x = 1\n", []⟩

theorem Infer.inferAt_of_listed_ownSample :
    ∃ module loaded, Session.loadSource Source.ownSample.text [] ["t"] (Session.new {} {} false) =
        (.ok module, loaded) ∧ loaded.Orderly ∧
      ∃ tree key b owner, loaded.treeOf? module = some tree ∧ (key, b) ∈ tree.index.get.listed ∧
        b.kind = .assignment ∧ b.name.scope? = some owner ∧ owner.isFunction = true ∧
        inferAt module b.id b.name.start (engine 9) loaded =
          (do inferBinding (← contextOfScope module owner) b) (engine 9) loaded := by
  have hlisted : (Module.ofSource .ownSample).map (fun m =>
      ((Place.root 0 m).moduleEntries.flatMap IndexEntry.listing).any fun e =>
        e.2.kind == .assignment && e.2.name.scope?.any fun owner =>
          owner.isFunction && (ScopeIndex.home e.2).same owner) = .ok true := by decide +kernel
  obtain ⟨m, module, loaded, -, hload, horderly, hloaded, -, key, b, hb, hfound⟩ :=
    Session.exists_loaded_of_listed hlisted ["t"]
  simp only [Bool.and_eq_true, beq_iff_eq, Option.any_eq_true] at hfound
  obtain ⟨hkind, owner, howner, hfunction, hhome⟩ := hfound
  obtain ⟨tree, htree, hinfer⟩ := inferAt_of_listed hload (.refl _) horderly 9
  cases hloaded.treeOf?_eq.symm.trans htree
  obtain ⟨owner', howner', hrun⟩ := hinfer key b hb (by simp [hkind])
  cases howner.symm.trans howner'
  simp only [hhome, if_true] at hrun
  exact ⟨module, loaded, hload, horderly, _, key, b, owner, htree, hb, hkind, howner, hfunction,
    hrun⟩

namespace Infer

open Session

section

variable {name : Place} {id : Text} {c : Binding} {depth : Nat}

/-- In a comprehension, a name is seen as its target if no other binding of the name is listed
there. -/
theorem inferSeen_of_target (htree : s.values.tree? context = some name.tree)
    (howner : name.scope? = some owner) (hcomprehension : owner.isComprehension = true)
    (hlookup : (s.indexOf owner).lookup owner id = [c]) (hscope : c.scope.same owner = true)
    (hreached : c.name.verdictByOrigin? name = some .reachable) (hoverload : c.isOverload = false) :
    inferSeen context name id calls s = inferNames [.tree c context] calls s := by
  have hverdict : bindingVerdict context owner (some name) c = pure .reachable := by
    rw [bindingVerdict, Place.reachability, Option.bind_some, hreached, hscope, hoverload]
    rfl
  have hnames : scopeNames context owner none (some name) .plain id calls s =
      (.ok [.tree c context], s) := by
    have hfunction : owner.isFunction = false := by
      have hopens := opensBody_of_isComprehension hcomprehension
      simp only [Place.opensBody, Bool.or_eq_false_iff] at hopens
      exact hopens.1.1
    have hinspect : inspect (fun s => (s.indexOf owner).lookup owner id) calls s =
        (.ok [c], s) := by
      rw [inspect_run, hlookup]
    rw [scopeNames, ScopeIndex.isRedirected, redirect?_of_not_isFunction hfunction,
      if_neg (by simp), bind_of_ok hinspect, Bindings.select_singleton hverdict rfl]
    rfl
  have hinner : comprehensionNames context id name name.scopesAround calls s =
      (.ok [.tree c context], s) := by
    rw [scopesAround_of_scope? howner, comprehensionNames, if_pos hcomprehension, bind_of_ok hnames]
    rfl
  have hfound : findNames context id (some name.start) (some name) calls s =
      (.ok [.tree c context], s) := by
    have hquery : query (·.tree? context) calls s = (.ok (some name.tree), s) :=
      congrArg (fun tree => (Except.ok tree, s)) htree
    rw [findNames, bind_of_ok hquery]
    dsimp only
    rw [if_pos BEq.rfl, bind_of_ok hinner]
    rfl
  rw [inferSeen, bind_of_ok hfound]

/-- The first inference of a target of a comprehension, or of a name behind `:=`, gives what its
definition gives. -/
theorem inferBinding_of_assigned {out : ValueSet} (hkind : b.kind = .namedExpr ∨
    b.kind = .comprehensionTarget) (hfirst : s.memo.find? (.binding b.name.key context) = none)
    (hrun : assignedValue context b.definition b.kind b.name (engine depth) (opened b context s) =
      (.ok out, t)) : ∃ u, inferBinding context b (engine (depth + 1)) s = (.ok out, u) := by
  have hcompute : computeBinding b context (engine depth)
      (memoSlot.update (·.start (.binding b.name.key context) none) s) =
        (.ok out, { t with trace := t.trace.outdent }) := by
    rw [computeBinding]
    rcases hkind with hkind | hkind <;>
    · rw [hkind] at hrun ⊢
      rw [indented_apply]
      exact congrArg (fun run => (run.1, { run.2 with trace := run.2.trace.outdent })) hrun
  exact ⟨_, MemoSlot.answer_of_ok hfirst hcompute⟩

theorem eval_yield_of_new (depth : Nat) {node : Place} {isFrom : Bool} {value : Option Node}
    (hform : node.node.form = .yield isFrom value)
    (hnew : s.memo.find? (.eval node.key context) = none) :
    ∃ t, eval context node (engine (depth + 1)) s = (.ok ∅, t) := by
  have hcompute : computeEval context node (engine depth)
      (memoSlot.update (·.start (.eval node.key context) none) s) =
        (.ok ∅, memoSlot.update (·.start (.eval node.key context) none) s) := by
    rw [computeEval, Place.form, hform]
    rfl
  exact ⟨_, MemoSlot.answer_of_ok hnew hcompute⟩

end

end Infer

/-- The number that `:=` binds to a name. -/
def Place.namedInt? (p : Place) : Option Text :=
  match p.form with
  | .named _ value => value.int?
  | _ => none

/-- Whether the place is a comprehension that binds the name to what a `yield` gives. -/
def Place.bindsYielded (p name : Place) : Bool :=
  match p.form with
  | .comprehension _ _ _ [clause] =>
    clause.target.same name && match clause.iterable.node.form with
      | .yield .. => true
      | _ => false
  | _ => false

theorem Place.covers_of_same {p q : Place} (h : p.same q = true) : p.covers q = true := by
  have hkey : p.key = q.key := beq_iff_eq.mp h
  have htree : p.tree = q.tree := congrArg PlaceKey.tree hkey
  have hpath : p.path = q.path := congrArg PlaceKey.path hkey
  simp [covers, htree, hpath]

namespace Infer

variable {s : Session} {b : Binding} (context : ValueId) (depth : Nat)

theorem inferBinding_of_namedInt? {text : Text} (hkind : b.kind = .namedExpr)
    (hint : b.definition.namedInt? = some text) (hfresh : ∀ q, s.memo.find? q = none) :
    ∃ id t, inferBinding context b (engine (depth + 2)) s = (.ok (.single id), t) := by
  unfold Place.namedInt? at hint
  split at hint
  · next target value hform =>
    have hnew : (opened b context s).memo.find? (.eval value.key context) = none := by
      rw [(matches_opened b context s).memo, hfresh]
    obtain ⟨t, hrun, -⟩ := eval_int_of_new depth (int?_eq_some hint) hnew
    have hassigned : assignedValue context b.definition b.kind b.name = eval context value := by
      unfold assignedValue
      rw [hkind, hform]
    obtain ⟨u, hinfer⟩ := inferBinding_of_assigned (.inl hkind) (hfresh _) (hassigned ▸ hrun)
    exact ⟨_, u, hinfer⟩
  · cases hint

theorem inferBinding_of_bindsYielded (hkind : b.kind = .comprehensionTarget)
    (hyields : b.definition.bindsYielded b.name = true) (hfresh : ∀ q, s.memo.find? q = none) :
    ∃ t, inferBinding context b (engine (depth + 2)) s = (.ok ∅, t) := by
  unfold Place.bindsYielded at hyields
  split at hyields
  · next kind element value clause hform =>
    obtain ⟨hsame, hyield⟩ := Bool.and_eq_true_iff.mp hyields
    split at hyield
    · next isFrom operand hoperand =>
      have hnew : (opened b context s).memo.find? (.eval clause.iterable.key context) = none := by
        rw [(matches_opened b context s).memo, hfresh]
      obtain ⟨t, hrun⟩ := eval_yield_of_new depth hoperand hnew
      refine inferBinding_of_assigned (t := t) (.inr hkind) (hfresh _) ?_
      unfold assignedValue
      rw [hkind, hform]
      simp only [find?_cons, covers_of_same hsame]
      rw [bind_of_ok hrun]
      change unpackTo ∅ clause.target b.name _ _ = _
      rw [unpackTo, unpackTarget, if_pos hsame]
      rfl
    · cases hyield
  · cases hyields

end Infer

/-- A comprehension that binds its target once more. -/
def Source.shadowSample : Source := ⟨"[(y := 1) for y in (yield)]\n", []⟩

/-- A name that `:=` binds in a comprehension is inferred to what the target of the same name is
bound to. -/
theorem Infer.inferAt_ne_inferBinding_shadowSample :
    ∃ module loaded, Session.loadSource Source.shadowSample.text [] ["t"]
        (Session.new {} {} false) = (.ok module, loaded) ∧ loaded.Orderly ∧
      ∃ tree key b owner, loaded.treeOf? module = some tree ∧ (key, b) ∈ tree.index.get.listed ∧
        b.kind = .namedExpr ∧ b.name.scope? = some owner ∧ ∀ depth, ∃ id t u,
          inferAt module b.id b.name.start (engine (depth + 2)) loaded = (.ok ∅, t) ∧
          (do inferBinding (← contextOfScope module owner) b) (engine (depth + 2)) loaded =
            (.ok (.single id), u) := by
  have hlisted : (Module.ofSource .shadowSample).map (fun m =>
      ((Place.root 0 m).moduleEntries.flatMap IndexEntry.listing).any fun e =>
        e.2.kind == .namedExpr && e.2.definition.namedInt? == some "1" &&
        e.2.name.scope?.any fun owner =>
          owner.isComprehension && (owner :: owner.scopesAround).all (!·.opensBody) &&
          !(ScopeIndex.home e.2).same owner &&
          ((Place.root 0 m).moduleEntries.filterMap (IndexEntry.binding? owner e.2.id)).length ==
            1 &&
          ((Place.root 0 m).moduleEntries.filterMap (IndexEntry.binding? owner e.2.id)).all fun c =>
            c.kind == .comprehensionTarget && c.scope.same owner && !c.isOverload &&
            c.name.verdictByOrigin? e.2.name == some .reachable &&
            c.definition.bindsYielded c.name) = .ok true := by decide +kernel
  obtain ⟨m, module, loaded, h, hload, horderly, hloaded, hfresh, key, b, hb, hfound⟩ :=
    Session.exists_loaded_of_listed hlisted ["t"]
  simp only [Bool.and_eq_true, beq_iff_eq, Option.any_eq_true, Bool.not_eq_true',
    length_eq_one_iff] at hfound
  obtain ⟨⟨hkind, hint⟩, owner, howner, ⟨⟨⟨hcomprehension, hbodies⟩, hhome⟩, c, hc⟩, hall⟩ := hfound
  rw [hc] at hall
  simp only [all_cons, all_nil, Bool.and_true, Bool.and_eq_true, beq_iff_eq,
    Bool.not_eq_true'] at hall
  obtain ⟨⟨⟨⟨htarget, hscope⟩, hoverload⟩, hreached⟩, hyields⟩ := hall
  refine ⟨module, loaded, hload, horderly, _, key, b, owner, hloaded.treeOf?_eq, hb, hkind, howner,
    fun depth => ?_⟩
  -- The comprehension makes no context: its scope is seen from the module.
  have hcontext : contextOfScope module owner (engine (depth + 2)) loaded =
      (.ok module, loaded) := by
    have hchain : (owner :: owner.scopesAround).filter Place.opensBody = [] := by
      refine filter_eq_nil_iff.mpr fun scope hmem => ?_
      simpa using all_eq_true.mp hbodies scope hmem
    rw [contextOfScope_eq, hchain]
    rfl
  have hnotParam : b.kind ≠ .param := by simp [hkind]
  obtain ⟨hwalk, -⟩ := occurrence_of_listed h hb hnotParam
  have hlookup : (loaded.indexOf owner).lookup owner b.id = [c] := by
    rw [hloaded.indexOf_eq (mem_walk_of_scope? rfl hwalk howner), lookup_ofModule]
    exact hc
  have hseen : inferSeen module b.name b.id (engine (depth + 2)) loaded =
      inferNames [.tree c module] (engine (depth + 2)) loaded := by
    refine inferSeen_of_target ?_ howner hcomprehension hlookup hscope hreached hoverload
    rw [hloaded.tree?_eq, tree_of_mem_walk hwalk]
    rfl
  obtain ⟨id, u, hbound⟩ := inferBinding_of_namedInt? module depth hkind hint hfresh
  obtain ⟨t, hempty⟩ := inferBinding_of_bindsYielded module depth htarget hyields hfresh
  refine ⟨id, t, u, ?_, (bind_of_ok hcontext).trans hbound⟩
  rw [inferAt, bind_of_ok ((contextAt_start h hloaded hb hnotParam howner).trans hcontext),
    inferFrom_start h hloaded hb (steady_engine _) horderly hnotParam howner hcontext, hhome,
    if_neg (by simp), hseen, inferNames, collect_singleton]
  exact hempty

end NameInference

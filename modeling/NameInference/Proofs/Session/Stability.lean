import NameInference.Proofs.Steady.Queries

/-!
# Answers are stable

A step repeats if, taken again in any later session, it gives the same result and only counts
answers that were known. Answers through the memo repeat, because recorded answers stay; contexts of
scopes repeat, because all that they are made of is interned. Both together let the search for
issues repeat.
-/

namespace NameInference

open Values

variable {value : Value Place} {node : Place}

namespace Session

variable {s t u : Session} {q : Question}

/-- The session with further answers counted that were known. -/
def hitting (n : Nat) (s : Session) : Session :=
  { s with memo := { s.memo with hits := s.memo.hits + n } }

theorem hitting_hitting (m n : Nat) (s : Session) :
    (s.hitting m).hitting n = s.hitting (m + n) := by
  simp only [hitting, Nat.add_assoc]

theorem evolves_hitting (n : Nat) (s : Session) : s.Evolves (s.hitting n) :=
  .of_memo (f := fun memo => { memo with hits := memo.hits + n }) (.refl _) (fun _ => rfl) fun _ =>
    rfl

/-- Interned again, a value gets the handle it has. -/
theorem Evolves.intern_again (h : (s.intern value).2.Evolves u) :
    u.intern value = ((s.intern value).1, u) := by
  have hagain : Arena.intern (·.map Place.key) u.values value = ((s.intern value).1, u.values) :=
    h.values.intern_again
  rw [Session.intern]
  simp only [hagain]

/-- Interned again, an argument list gets the handle it has. -/
theorem Evolves.internArguments_again {list : ArgumentList Place}
    (h : (s.internArguments list).2.Evolves u) :
    u.internArguments list = ((s.internArguments list).1, u) := by
  have hagain : Arena.intern (·.map Place.key) u.arguments list =
    ((s.internArguments list).1, u.arguments) :=
    h.arguments.intern_again
  rw [Session.internArguments]
  simp only [hagain]

/-- An answer that is not asked for by its own computation is recorded. -/
theorem find?_of_answer {recovers : Failure → Bool} {fallback a : Answer q}
    {compute : SessionM (Answer q)} (hidle : s.memo.isRunning q = false)
    (hrun : memoSlot.answer recovers q fallback compute s = (.ok a, t)) :
    t.memo.find? q = some (.done a) := by
  rcases recorded_of_ending (hrun ▸ memoSlot.answer_ending recovers fallback compute s) with
    ⟨_, hfound, -⟩ | hdone
  · cases hidle.symm.trans (Memo.isRunning_iff.mpr ⟨_, hfound⟩)
  · exact hdone

end Session

namespace Infer

variable {α β : Type} {calls : Calls} {s t : Session}

theorem inspect_run (f : Session → α) : inspect f calls s = (.ok (f s), s) := rfl

/-- Taken again in any later session, the step gives the same and changes nothing but the count of
known answers. -/
def Repeats (step : Infer α) (calls : Calls) (s : Session) : Prop :=
  ∀ a t, step calls s = (.ok a, t) → ∀ u, t.Evolves u → ∃ n, step calls u = (.ok a, u.hitting n)

theorem evolves_of_run {step : Infer α} [h : Steady step] (hcalls : calls.Steady)
    {outcome : Except Failure α} (hrun : step calls s = (outcome, t)) : s.Evolves t := by
  have hevolves := h.evolves calls hcalls s
  rwa [hrun] at hevolves

theorem repeats_pure (a : α) : Repeats (pure a) calls s := by
  intro b t hrun u _
  cases hrun
  exact ⟨0, rfl⟩

/-- Steps that can be repeated can be so one behind the other. -/
theorem Repeats.bind {step : Infer α} {next : α → Infer β} (hcalls : calls.Steady)
    (hsteady : ∀ a, Steady (next a)) (hstep : Repeats step calls s)
    (hnext : ∀ a t, step calls s = (.ok a, t) → Repeats (next a) calls t) :
    Repeats (step >>= next) calls s := by
  intro b r hrun u hu
  obtain ⟨a, t, hfirst, hsecond⟩ := bind_eq_ok_iff.mp hrun
  obtain ⟨m, hm⟩ := hstep a t hfirst u ((evolves_of_run hcalls hsecond).trans hu)
  obtain ⟨n, hn⟩ := hnext a t hfirst b r hsecond (u.hitting m) (hu.trans (u.evolves_hitting m))
  exact ⟨m + n, by rw [bind_of_ok hm, hn, Session.hitting_hitting]⟩

theorem repeats_inspect {f : Session → α} (h : ∀ u, s.Evolves u → f u = f s) :
    Repeats (inspect f) calls s := by
  intro a t hrun u hu
  cases hrun
  exact ⟨0, by rw [← h u hu]; rfl⟩

theorem repeats_query {f : Values → α}
    (h : ∀ later : Values, s.values.Keeps later → f later = f s.values) :
    Repeats (query f) calls s :=
  repeats_inspect fun u hu => h u.values hu.values

theorem repeats_modifyGet {f : Session → α × Session}
    (h : ∀ u, (f s).2.Evolves u → f u = ((f s).1, u)) :
    Repeats (modifyGet f) calls s := by
  intro a t hrun u hu
  cases hrun
  exact ⟨0, congrArg (fun out : α × Session => (Except.ok out.1, out.2)) (h u hu)⟩

/-- A value that is interned again has its handle already. -/
theorem repeats_intern (value : Value Place) : Repeats (intern value) calls s :=
  repeats_modifyGet fun _ hu => hu.intern_again

theorem repeats_internArguments (list : ArgumentList Place) :
    Repeats (internArguments list) calls s :=
  repeats_modifyGet fun _ hu => hu.internArguments_again

/-- An answer through the memo repeats if its question is not being computed. -/
theorem repeats_eval (context : ValueId) (node : Place) (depth : Nat)
    (hidle : s.memo.isRunning (.eval node.key context) = false) :
    Repeats (eval context node) (engine (depth + 1)) s := by
  intro set t hrun u hu
  have hrecorded := hu.answers _ _ (Session.find?_of_answer hidle hrun)
  exact ⟨1, MemoSlot.answer_of_done hrecorded⟩

/-- There is room for a few nested steps. -/
theorem exists_engineDepth : ∃ depth, engineDepth = depth + 3 := ⟨engineDepth - 3, rfl⟩

/-- An expression is evaluated through the memo. -/
theorem start_eval (context : ValueId) (node : Place) (s : Session) : (eval context node).start s =
    Session.memoSlot.answer Failure.isRecoverable (.eval node.key context) (∅ : ValueSet)
      (computeEval context node (engine (engineDepth - 1))) s := rfl

end Infer

namespace Value

theorem isClass_map {ν μ : Type} (f : ν → μ) (value : Value ν) :
    (value.map f).isClass = value.isClass := by
  cases value <;> rfl

end Value

namespace Values

variable {values later : Values} {id : ValueId}

/-- The handle is that of a value, and the first context around it that is no class stays the same.
-/
structure Settled (values : Values) (id : ValueId) : Prop where
  lt_size : id < values.size
  beyondClasses_eq : ∀ later : Values, values.Keeps later → later.beyondClasses id =
    values.beyondClasses id

theorem test_eq_of_keeps (h : values.Keeps later) (hlt : id < values.size)
    (property : Value Place → Bool) :
    later.test property id = values.test property id := by
  rw [test, test, h.get?_eq hlt]

theorem Settled.keeps (hsettled : values.Settled id) (h : values.Keeps later) :
    later.Settled id where
  lt_size := Nat.lt_of_lt_of_le hsettled.lt_size h.size_le
  beyondClasses_eq last hlast := by
    rw [hsettled.beyondClasses_eq last (h.trans hlast), hsettled.beyondClasses_eq later h]

/-- What is no class is its own context. -/
theorem settled_of_not_isClass (hlt : id < values.size) (hclass : values.isClass id = false) :
    values.Settled id := by
  have hself (values : Values) (hclass : values.isClass id = false) : values.beyondClasses id =
      id := by
    rw [beyondClasses, hclass]
    rfl
  refine ⟨hlt, fun later h => ?_⟩
  rw [hself values hclass, hself later ((test_eq_of_keeps h hlt _).trans hclass)]

/-- A class in a settled context is settled. -/
theorem settled_of_class {parent : ValueId} (hget : values.get? id = some (.cls node parent))
    (hparent : values.Settled parent) : values.Settled id := by
  have hbeyond (values : Values) (hget : values.get? id = some (.cls node parent)) :
      values.beyondClasses id = if parent < id then values.beyondClasses parent else parent := by
    have hclass : values.isClass id = true := by simp [isClass, test, hget, Value.isClass]
    have hup : values.parent? id = some parent := by rw [parent?, hget]
    rw [beyondClasses, hclass, hup]
    rfl
  have hlt := Arena.lt_size_of_get? hget
  refine ⟨hlt, fun later h => ?_⟩
  rw [hbeyond values hget, hbeyond later (h.items _ _ hget), hparent.beyondClasses_eq later h]

end Values

namespace Infer

variable {calls : Calls} {s t : Session} {context id : ValueId}

/-- What a step that interns a value gives is what the session gives. -/
theorem intern_eq_of_run (hrun : intern value calls s = (.ok id, t)) :
    s.intern value = (id, t) := by
  have h : (Except.ok (s.intern value).1, (s.intern value).2) =
    ((.ok id, t) : Except Failure ValueId × Session) := hrun
  generalize s.intern value = out at h
  cases h
  rfl

theorem evolves_of_intern (hrun : intern value calls s = (.ok id, t)) : s.Evolves t := by
  have h := s.evolves_intern value
  rwa [intern_eq_of_run hrun] at h

theorem makeFunction_apply (node : Place) (context : ValueId) (s : Session) :
    makeFunction node context calls s =
    intern (.function node (s.values.beyondClasses context)
      (if s.values.isClass context then some context else none)) calls s := rfl

/-- A definition is made into the same function again. -/
theorem repeats_makeFunction (node : Place) (hsettled : s.values.Settled context) :
    Repeats (makeFunction node context) calls s := by
  intro id t hrun u hu
  rw [makeFunction_apply] at hrun
  have hlater : s.Evolves u := (evolves_of_intern hrun).trans hu
  rw [makeFunction_apply, hsettled.beyondClasses_eq _ hlater.values,
    show u.values.isClass context = _ from test_eq_of_keeps hlater.values hsettled.lt_size _]
  exact repeats_intern _ id t hrun u hu

theorem repeats_makeAnonymousExecution (hcalls : calls.Steady) {callee : ValueId}
    (hlt : callee < s.values.size) :
    Repeats (makeAnonymousExecution callee) calls s := by
  unfold makeAnonymousExecution
  refine .bind hcalls (fun _ => by split <;> infer_instance) (repeats_query fun later h => ?_)
    fun function t _ => ?_
  · rw [Values.function?, Values.function?, h.get?_eq hlt]
  · split
    · exact repeats_intern _
    · exact .bind hcalls inferInstance (repeats_intern _) fun _ _ _ => .bind hcalls inferInstance
        (repeats_internArguments _) fun _ _ _ => repeats_intern _

/-- The value that a step has interned has the key it was interned with. -/
theorem exists_get?_of_intern (hconsistent : s.values.Consistent)
    (hrun : intern value calls s = (.ok id, t)) :
    ∃ found, t.values.get? id = some found ∧ found.map Place.key = value.map Place.key := by
  have hget := hconsistent.get?_intern value
  have hintern := intern_eq_of_run hrun
  obtain rfl : (s.intern value).1 = id := congrArg Prod.fst hintern
  obtain rfl : (s.intern value).2 = t := congrArg Prod.snd hintern
  exact Option.map_eq_some_iff.mp hget

theorem settled_of_intern (hconsistent : s.values.Consistent) (hclass : value.isClass = false)
    (hrun : intern value calls s = (.ok id, t)) : t.values.Settled id := by
  obtain ⟨found, hget, hkey⟩ := exists_get?_of_intern hconsistent hrun
  refine settled_of_not_isClass (Arena.lt_size_of_get? hget) ?_
  rw [Values.isClass, Values.test, hget, ← hclass, ← Value.isClass_map Place.key value, ← hkey,
    Value.isClass_map]
  rfl

/-- The context of a class in a settled context is settled. -/
theorem settled_of_makeClass (hsettled : s.values.Settled context)
    (hconsistent : s.values.Consistent) (hrun : makeClass node context calls s = (.ok id, t)) :
    t.values.Settled id := by
  obtain ⟨found, hget, hkey⟩ := exists_get?_of_intern hconsistent hrun
  have hkept := hsettled.keeps (evolves_of_intern hrun).values
  cases found with
  | cls node' parent =>
    obtain rfl : parent = context := by
      simp only [Value.map, Value.cls.injEq] at hkey
      exact hkey.2
    exact settled_of_class hget hkept
  | _ => simp [Value.map] at hkey

/-- So is that of an execution. -/
theorem settled_of_makeAnonymousExecution {callee : ValueId} (hcalls : calls.Steady)
    (hconsistent : s.values.Consistent)
    (hrun : makeAnonymousExecution callee calls s = (.ok id, t)) : t.values.Settled id := by
  obtain ⟨function, _, hquery, hrun⟩ := bind_eq_ok_iff.mp hrun
  have hconsistent := (evolves_of_run hcalls hquery).consistent hconsistent
  cases howner : function.bind (·.2.2) with
  | none =>
    rw [howner] at hrun
    exact settled_of_intern hconsistent rfl hrun
  | some owner =>
    rw [howner] at hrun
    obtain ⟨receiver, _, hreceiver, hrun⟩ := bind_eq_ok_iff.mp hrun
    obtain ⟨arguments, _, harguments, hrun⟩ := bind_eq_ok_iff.mp hrun
    have hevolves := (evolves_of_run hcalls hreceiver).trans (evolves_of_run hcalls harguments)
    exact settled_of_intern (hevolves.consistent hconsistent) rfl hrun

/-- One step from a context to that of a scope in it. -/
def enterScope (context : ValueId) (node : Place) : Infer ValueId := do
  if node.isClass then makeClass node context
  else makeAnonymousExecution (← makeFunction node context)

instance (context : ValueId) (node : Place) :
    Steady (enterScope context node) := by unfold enterScope; infer_instance

theorem contextOfScope_eq (module : ValueId) (scope : Place) : contextOfScope module scope =
    ((scope :: scope.scopesAround).filter Place.opensBody).reverse.foldlM enterScope module := rfl

/-- A scope is entered by the same context again. -/
theorem repeats_enterScope (hcalls : calls.Steady) (hsettled : s.values.Settled context)
    (hconsistent : s.values.Consistent) (node : Place) :
    Repeats (enterScope context node) calls s := by
  unfold enterScope
  split
  · exact repeats_intern _
  · refine .bind hcalls inferInstance (repeats_makeFunction node hsettled) fun callee t hrun => ?_
    rw [makeFunction_apply] at hrun
    obtain ⟨_, hget, -⟩ := exists_get?_of_intern hconsistent hrun
    exact repeats_makeAnonymousExecution hcalls (Arena.lt_size_of_get? hget)

theorem settled_of_enterScope (hcalls : calls.Steady) (hsettled : s.values.Settled context)
    (hconsistent : s.values.Consistent)
    (hrun : enterScope context node calls s = (.ok id, t)) : t.values.Settled id := by
  unfold enterScope at hrun
  split at hrun
  · exact settled_of_makeClass hsettled hconsistent hrun
  · obtain ⟨callee, r, hcallee, hexecution⟩ := bind_eq_ok_iff.mp hrun
    exact settled_of_makeAnonymousExecution hcalls
      ((evolves_of_run hcalls hcallee).consistent hconsistent) hexecution

/-- The context of a scope repeats. The contexts that lead to it are settled, one after the other.
-/
theorem repeats_contextOfScope (hcalls : calls.Steady) {module : ValueId}
    (hsettled : s.values.Settled module) (hconsistent : s.values.Consistent) (scope : Place) :
    Repeats (contextOfScope module scope) calls s := by
  rw [contextOfScope_eq]
  generalize ((scope :: scope.scopesAround).filter Place.opensBody).reverse = chain
  induction chain generalizing module s with
  | nil => exact repeats_pure module
  | cons node chain ih =>
    rw [List.foldlM_cons]
    refine .bind hcalls inferInstance (repeats_enterScope hcalls hsettled hconsistent node)
      fun context t hrun => ?_
    exact ih (settled_of_enterScope hcalls hsettled hconsistent hrun)
      ((evolves_of_run hcalls hrun).consistent hconsistent)

end Infer

namespace Values

variable {values later : Values} {module : ValueId}

theorem exists_get?_of_isModule (h : values.isModule module = true) :
    ∃ value, values.get? module = some value ∧ value.isModule = true := by
  cases hget : values.get? module with
  | none => simp [isModule, test, hget] at h
  | some value => exact ⟨value, rfl, by simpa [isModule, test, hget] using h⟩

/-- A module is no class, so the context found for it is itself. -/
theorem settled_of_isModule (h : values.isModule module = true) : values.Settled module := by
  obtain ⟨value, hget, hvalue⟩ := exists_get?_of_isModule h
  refine settled_of_not_isClass (Arena.lt_size_of_get? hget) ?_
  cases value <;> simp [isClass, test, hget, Value.isClass] at hvalue ⊢ <;> cases hvalue

/-- A module is its own root. -/
theorem root_of_isModule (h : values.isModule module = true) : values.root module = module := by
  obtain ⟨value, hget, hvalue⟩ := exists_get?_of_isModule h
  have hparent : values.parent? module = none := by
    cases value with
    | module | compiled => rw [parent?, hget]
    | _ => cases hvalue
  rw [root, hparent]

theorem tree?_of_isModule (h : values.isModule module = true) :
    values.tree? module = (values.module? module).bind (·.tree) := by
  rw [tree?, root_of_isModule h]

end Values

theorem Session.Evolves.treeOf?_eq {s t : Session} (h : s.Evolves t) {module : ValueId}
    {tree : SourceTree} (hmodule : s.values.isModule module = true)
    (htree : s.treeOf? module = some tree) :
    t.treeOf? module = some tree := by
  have hlt := (settled_of_isModule hmodule).lt_size
  have hlater : t.values.isModule module = true := (test_eq_of_keeps h.values hlt _).trans hmodule
  have hsame : t.values.module? module = s.values.module? module := by
    rw [Values.module?, Values.module?, h.values.get?_eq hlt]
  rw [treeOf?, tree?_of_isModule hmodule] at htree
  rw [treeOf?, tree?_of_isModule hlater, hsame]
  obtain ⟨n, hn, htree⟩ := Option.bind_eq_some_iff.mp htree
  exact Option.bind_eq_some_iff.mpr ⟨n, hn, h.trees n tree htree⟩

namespace Infer

variable {calls : Calls} {s t : Session} {module : ValueId} {tree : SourceTree}

/-- The context at a position in a module with a tree repeats. -/
theorem repeats_contextAt (hcalls : calls.Steady) (hmodule : s.values.isModule module = true)
    (htree : s.treeOf? module = some tree) (hconsistent : s.values.Consistent)
    (position : Position) :
    Repeats (contextAt module position) calls s := by
  refine .bind hcalls (fun _ => by split <;> infer_instance) (repeats_inspect fun u hu => ?_)
    fun found t hrun => ?_
  · rw [hu.treeOf?_eq hmodule htree, htree]
  · split
    · exact repeats_pure module
    · have hevolves := evolves_of_run hcalls hrun
      exact repeats_contextOfScope hcalls ((settled_of_isModule hmodule).keeps hevolves.values)
        (hevolves.consistent hconsistent) _

/-- A loop repeats if each of its rounds does. -/
theorem repeats_forIn {α β : Type} (hcalls : calls.Steady) {items : List α}
    {f : α → β → Infer (ForInStep β)} (hsteady : ∀ a b, Steady (f a b)) {init : β}
    (h : ∀ t, s.Evolves t → ∀ a b, Repeats (f a b) calls t) :
    Repeats (forIn items init f) calls s := by
  induction items generalizing s init with
  | nil => exact repeats_pure init
  | cons item items ih =>
    rw [List.forIn_cons]
    refine .bind hcalls (fun step => ?_) (h s (.refl s) item init) fun step t hrun => ?_
    · cases step <;> infer_instance
    · cases step with
      | done b => exact repeats_pure b
      | yield b => exact ih fun u hu => h u ((evolves_of_run hcalls hrun).trans hu)

/-- Evaluating all calls of a module repeats. -/
theorem repeats_evalCalls (depth : Nat) (hsound : s.Sound)
    (hmodule : s.values.isModule module = true) (htree : s.treeOf? module = some tree)
    (nodes : List Place) :
    Repeats (forIn nodes PUnit.unit fun node _ => do
      let _ ← eval (← contextAt module node.start) node
      pure (.yield PUnit.unit)) (engine (depth + 1)) s := by
  have hcalls := steady_engine (depth + 1)
  refine repeats_forIn hcalls inferInstance fun t ht node _ => ?_
  have hlater : t.values.isModule module = true :=
    (test_eq_of_keeps ht.values (settled_of_isModule hmodule).lt_size _).trans hmodule
  refine .bind hcalls inferInstance (repeats_contextAt hcalls hlater (ht.treeOf?_eq hmodule htree)
    (ht.consistent hsound.consistent) _) fun context r hrun => ?_
  have hidle := (hsound.evolves (ht.trans (evolves_of_run hcalls hrun))).idle
  exact .bind hcalls inferInstance (repeats_eval context node depth (hidle _)) fun _ _ _ =>
    repeats_pure _

/-- Asked for twice, the issues of a module are the same, and none is recorded the second time. -/
theorem collectIssues_again (depth : Nat) (hsound : s.Sound)
    (hmodule : s.values.isModule module = true) {issues : List Issue}
    (hrun : collectIssues module (engine (depth + 1)) s = (.ok issues, t)) :
    ∃ n, collectIssues module (engine (depth + 1)) t = (.ok issues, t.hitting n) := by
  have hevolves := evolves_of_run (steady_engine (depth + 1)) hrun
  have hagain := hrun
  unfold collectIssues at hrun
  rw [bind_of_ok (inspect_run _)] at hrun
  cases htree : s.treeOf? module with
  | none =>
    rw [htree] at hrun
    cases hrun
    exact ⟨0, hagain⟩
  | some tree =>
    rw [htree] at hrun
    obtain ⟨_, r, hloop, hlast⟩ := bind_eq_ok_iff.mp hrun
    cases hlast
    obtain ⟨n, hn⟩ := repeats_evalCalls depth hsound hmodule htree _ _ t hloop t (.refl t)
    refine ⟨n, ?_⟩
    unfold collectIssues
    rw [bind_of_ok (inspect_run _), hevolves.treeOf?_eq hmodule htree]
    exact bind_of_ok hn

end Infer

namespace Session

/-- Answers are stable between queries, in whatever order they come and whether they fail or not. In
every session that queries lead to, no issue is recorded twice. Once an expression has been
evaluated in a context, it has the same values in that context after any further queries, and
evaluating it again only counts one more answer that was known. Collecting the issues of a module
twice gives the same issues, and records none the second time. -/
theorem Reached.answers_stable {s : Session} (h : s.Reached) :
    s.DistinctIssues ∧
    (∀ context node set t, (Infer.eval context node).start s = (.ok set, t) → ∀ u, t.Later u →
      (Infer.eval context node).start u = (.ok set, { u with memo := u.memo.hit })) ∧
    ∀ module issues t, s.values.isModule module = true →
      (Infer.collectIssues module).start s = (.ok issues, t) →
      ∃ u, (Infer.collectIssues module).start t = (.ok issues, u) ∧ u.issues = t.issues := by
  have hsound := h.sound
  refine ⟨hsound.distinct, fun context node set t hrun u hlater => ?_,
    fun module issues t hmodule hrun => ?_⟩
  · rw [Infer.start_eval] at hrun ⊢
    exact MemoSlot.answer_of_done
      (hlater.evolves.answers _ _ (find?_of_answer (hsound.idle _) hrun))
  · obtain ⟨depth, hdepth⟩ := Infer.exists_engineDepth
    rw [Infer.start, hdepth] at hrun
    obtain ⟨n, hagain⟩ := Infer.collectIssues_again (depth + 2) hsound hmodule hrun
    exact ⟨t.hitting n, by rw [Infer.start, hdepth, hagain], rfl⟩

/-- A number has the same value in a new session and after any queries. -/
theorem Reached.answers_stable_number :
    let number : Place := { tree := 0, node := .mk default .load (.int "1") }
    ∃ t, (Infer.eval 0 number).start (Session.new {} {} false) = (.ok (.single 0), t) ∧
      ∀ u, t.Later u → (Infer.eval 0 number).start u =
        (.ok (.single 0), { u with memo := u.memo.hit }) := by
  intro number
  let new := Session.new {} {} false
  have hfresh : new.memo.find? (.eval number.key 0) = none := Memo.find?_empty
  let marked := memoSlot.update (·.start (.eval number.key 0) none) new
  let value : Value Place := .compiled "int" "1" false
  have hvalue : (marked.intern value).1 = 0 := by
    change (Arena.intern (Value.map Place.key) {} value).1 = 0
    rw [Arena.intern_of_new (Arena.find?_empty _ _)]
    rfl
  have hcompute (calls : Calls) : Infer.computeEval 0 number calls marked =
      (.ok (ValueSet.single 0), (marked.intern value).2) :=
    congrArg (fun id => (Except.ok (ValueSet.single id), (marked.intern value).2)) hvalue
  have hrun := (Infer.start_eval 0 number new).trans (MemoSlot.answer_of_ok hfresh (hcompute _))
  exact ⟨_, hrun, (Session.Reached.answers_stable ⟨{}, {}, false, .refl⟩).2.1 0 number _ _ hrun⟩

end Session

end NameInference

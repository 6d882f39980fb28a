import NameInference.Proofs.Flow.Returns

/-!
# No reachable `return` is lost

What an execution gives, seen from the `return` statements of its function.

* `Infer.run_of_admits`: an execution that is asked for the first time and that the guard lets pass
  evaluates them.
* `Infer.run_includes_returns`: the result has the values of every `return` that a path ends in. The
  only ones lost stand behind a hasty one, around which are only managers and `for` loops, because a
  `for` loop counts as one that always runs (`Infer.run_omits_return_loopSample`).
-/

namespace NameInference

open List Memo Place

variable {fn : Place} {execution : ValueId}

namespace Infer

variable {execution function : ValueId} {depth : Nat} {calls : Calls} {s t : Session}
  {fn flow p : Place}

theorem failsDeep_verdictOf (p flow : Place) :
    FailsDeep (flow.verdictOf (check execution) p) (engine depth) := by
  unfold Place.verdictOf
  split
  · split
    · exact (failsDeep_check _ _ _).bind fun _ => failsDeep_pure _
    · exact failsDeep_check _ _ _
    · exact failsDeep_pure _
  all_goals exact failsDeep_pure _

theorem failsDeep_verdictUpTo (scope : Option PlaceKey) (p flow : Place) :
    FailsDeep (Place.verdictUpTo (check execution) scope p flow) (engine depth) := by
  induction hdepth : flow.depth using Nat.strongRecOn generalizing flow with
  | ind n ih =>
    unfold Place.verdictUpTo
    refine (failsDeep_verdictOf p flow).bind fun here =>
      .ite (failsDeep_pure _) (.ite (failsDeep_pure _) ?_)
    split
    · exact failsDeep_pure _
    · next outer houter =>
      have hup := ih outer.depth (hdepth ▸ depth_governorAlong houter) outer rfl
      exact hup.bind fun _ => failsDeep_pure _

theorem failsDeep_reachability (scope : Option Place) (p : Place) :
    FailsDeep (p.reachability (check execution) scope none) (engine depth) := by
  unfold Place.reachability
  simp only [Option.bind_none]
  split
  · exact failsDeep_pure _
  · exact failsDeep_verdictUpTo _ _ _

theorem failsDeep_returnedValue (stmt : Place) :
    FailsDeep (returnedValue execution stmt) (engine depth) := by
  rcases returnedValue_cases execution stmt with ⟨value, heq⟩ | heq
  · rw [heq]
    exact failsDeep_eval _ _ _
  · rw [heq]
    exact failsDeep_noneValue

theorem failsDeep_returnValues (stmts : List Place) :
    FailsDeep (returnValues execution fn stmts) (engine depth) := by
  induction stmts with
  | nil => exact failsDeep_pure _
  | cons stmt rest ih =>
    rw [returnValues_cons]
    refine (failsDeep_reachability _ _).bind fun verdict =>
      .ite ((failsDeep_debug _).bind fun _ => ih) ?_
    exact (failsDeep_returnedValue stmt).bind fun _ =>
      .ite (failsDeep_pure _) (ih.bind fun _ => failsDeep_pure _)

theorem modifyGet_apply {α : Type} {f : Session → α × Session} :
    (modifyGet f : Infer α) calls s = (.ok (f s).1, (f s).2) := rfl

/-- A step that takes another one, before and after which only what a session does not remember
changes. -/
def Encloses (outer inner : Infer ValueSet) (calls : Calls) (s : Session) : Prop :=
  ∃ (u : Session) (f : Session → Session), u.remembered = s.remembered ∧
    (∀ t, (f t).remembered = t.remembered) ∧
    outer calls s = ((inner calls u).1, f (inner calls u).2)

theorem encloses_indented (step : Infer ValueSet) (s : Session) :
    Encloses (indented step) step calls s :=
  ⟨{ s with trace := s.trace.indent }, fun t => { t with trace := t.trace.outdent }, rfl, fun _ =>
    rfl, indented_apply⟩

theorem Encloses.debug {message : Session → Text} {outer inner : Infer ValueSet}
    (h : ∀ s, Encloses outer inner calls s) (s : Session) :
    Encloses (do Infer.debug message; outer) inner calls s := by
  obtain ⟨u, f, hu, hf, hrun⟩ := h (s.debug message)
  exact ⟨u, f, hu.trans (Session.remembered_debug _ _), hf, (bind_of_ok rfl).trans hrun⟩

/-- An execution that is not skipped takes its step. -/
theorem encloses_guarded {outer inner : Infer ValueSet} (h : ∀ s, Encloses outer inner calls s)
    (hguard : (s.guard.push s.settings.limits fn.key
      (s.values.isBuiltins (s.values.root function))).1 = false) :
    Encloses (guarded function fn outer) inner calls s := by
  cases hpush : s.guard.push s.settings.limits fn.key
      (s.values.isBuiltins (s.values.root function)) with
  | mk stopped guard =>
    rw [hpush] at hguard
    obtain rfl : stopped = false := hguard
    obtain ⟨u, f, hu, hf, hrun⟩ := h { s with guard := guard }
    refine ⟨u, fun t => { f t with guard := (f t).guard.pop }, hu, hf, ?_⟩
    unfold guarded
    rw [bind_of_ok (a := s.values.isBuiltins (s.values.root function)) (t := s) rfl,
      bind_of_ok modifyGet_apply]
    simp only [hpush]
    rw [bind_apply, tryFinally_apply, if_neg (by simp), bind_apply, hrun]
    cases inner calls u with
    | mk outcome t => cases outcome <;> rfl

end Infer

/-- The execution of a function with the given body is asked for the first time. The function has no
hint and is no generator, the module implements it, and the guard lets the execution pass. -/
structure Session.Admits (s : Session) (execution function : ValueId) (fn : Place)
    (body : List Place) : Prop where
  form : ∃ isAsync colon decorators name params, fn.form =
    .functionDef isAsync colon decorators name params none body
  plain : fn.isGenerator = false
  callee : ∃ arguments, s.values.execution? execution = some (function, arguments)
  definition : ∃ parent owner, s.values.function? function = some (fn, parent, owner)
  implementation : s.values.isStub execution = false
  first : s.memo.find? (.execution execution) = none
  passes : (s.guard.push s.settings.limits fn.key
    (s.values.isBuiltins (s.values.root function))).1 = false

namespace Infer

variable {execution function : ValueId} {depth : Nat} {calls : Calls} {s t u : Session}
  {fn r : Place} {body : List Place} {set : ValueSet}

/-- The values of the `return` statements of a function, or `None` if there are none. -/
def returnsValue (execution : ValueId) (fn : Place) : Infer ValueSet :=
  match fn.returnStatements with
  | [] => noneValue
  | stmts => returnValues execution fn stmts

instance : Steady (returnsValue execution fn) := by
  unfold returnsValue
  split <;> infer_instance

theorem failsDeep_returnsValue (fn : Place) :
    FailsDeep (returnsValue execution fn) (engine depth) := by
  unfold returnsValue
  split
  · exact failsDeep_noneValue
  · exact failsDeep_returnValues _

theorem returnsValue_eq (h : fn.returnStatements ≠ []) :
    returnsValue execution fn = returnValues execution fn fn.returnStatements := by
  unfold returnsValue
  split
  · next hnil => exact absurd hnil h
  · rfl

/-- Behind a `return` that is reached for certain, no other one is evaluated. -/
theorem returnsValue_of_reachable {first : Place} {rest : List Place}
    (hreturns : fn.returnStatements = first :: rest)
    (hreach : first.reachability (check execution) (some fn) none = pure .reachable) :
    returnsValue execution fn = returnedValue execution first := by
  rw [returnsValue_eq (by simp [hreturns]), hreturns, returnValues_cons, hreach, pure_bind,
    if_neg (by decide)]
  exact bind_pure _

theorem bodyValue_apply (h : s.Admits execution function fn body) {frame : Frame}
    (hframe : frame.node = fn) (hvalues : u.values = s.values) :
    bodyValue execution frame calls u = returnsValue execution fn calls u := by
  obtain ⟨isAsync, colon, decorators, name, params, hform⟩ := h.form
  subst hframe
  have hstub : query (·.isStub execution) calls u = (.ok false, u) := by
    rw [← h.implementation, ← hvalues]
    rfl
  rw [bodyValue, hform]
  dsimp only
  rw [pure_bind, if_neg (by simp [ValueSet.isEmpty, EmptyCollection.emptyCollection]),
    bind_of_ok hstub, if_neg (by simp [h.plain])]
  rfl

/-- An execution that is admitted evaluates the `return` statements of its function. -/
theorem encloses_computeExecution (h : s.Admits execution function fn body) (calls : Calls)
    (f : Memo Question Answer → Memo Question Answer) : ∃ frame : Frame, frame.node = fn ∧
      Encloses (computeExecution execution) (bodyValue execution frame) calls
        (Session.memoSlot.update f s) := by
  obtain ⟨arguments, hcallee⟩ := h.callee
  obtain ⟨parent, owner, hdefinition⟩ := h.definition
  let frame : Frame := ⟨fn, owner.getD parent, owner, s.argumentList arguments⟩
  have hframe : frame? execution calls (Session.memoSlot.update f s) =
      (.ok (some frame), Session.memoSlot.update f s) := by
    refine congrArg (fun found => (Except.ok found, Session.memoSlot.update f s)) ?_
    change (s.values.execution? execution).bind _ = _
    rw [hcallee, Option.bind_some]
    change (s.values.function? function).bind _ = _
    rw [hdefinition]
    rfl
  have hexecution : query (·.execution? execution) calls (Session.memoSlot.update f s) =
      (.ok (some (function, arguments)), Session.memoSlot.update f s) := by
    rw [← hcallee]
    rfl
  refine ⟨frame, rfl, ?_⟩
  have hinside : ∀ s, Encloses (do
      debug fun s => "execute " ++ s.values.describe execution
      indented (bodyValue execution frame)) (bodyValue execution frame) calls s :=
    Encloses.debug (encloses_indented (bodyValue execution frame))
  obtain ⟨u, g, hu, hg, hrun⟩ :=
    encloses_guarded (s := Session.memoSlot.update f s) hinside h.passes
  refine ⟨u, g, hu, hg, ?_⟩
  rw [computeExecution, bind_of_ok hframe, bind_of_ok hexecution]
  exact hrun

/-- The first request of an admitted execution evaluates the `return` statements of the function in
a session that differs in nothing that is remembered, but that the execution is being computed. -/
theorem run_of_admits (h : s.Admits execution function fn body) (depth : Nat) :
    ∃ u, u.remembered =
      (Session.memoSlot.update (·.start (.execution execution) none) s).remembered ∧
      ((∃ t v, returnsValue execution fn (engine depth) u = (.error .nestedTooDeeply, t) ∧
          run execution (engine (depth + 1)) s = (.error .nestedTooDeeply, v)) ∨
        ∃ set t v, returnsValue execution fn (engine depth) u = (.ok set, t) ∧
          v.remembered = t.remembered ∧ run execution (engine (depth + 1)) s =
            (.ok set, Session.memoSlot.update (·.finish (.execution execution) set) v)) := by
  obtain ⟨frame, hframe, u, f, hu, hf, hcompute⟩ :=
    encloses_computeExecution h (engine depth) (·.start (.execution execution) none)
  have hvalues : u.values = s.values := congrArg (·.2.1) hu
  rw [bodyValue_apply h hframe hvalues] at hcompute
  refine ⟨u, hu, ?_⟩
  cases hreturns : returnsValue execution fn (engine depth) u with
  | mk outcome t =>
    rw [hreturns] at hcompute
    cases outcome with
    | ok set => exact .inr ⟨set, t, f t, rfl, hf t, MemoSlot.answer_of_ok h.first hcompute⟩
    | error e =>
      obtain rfl := failsDeep_returnsValue fn u e t hreturns
      exact .inl ⟨t, _, rfl, MemoSlot.answer_of_failed h.first hcompute rfl⟩

/-- When the execution has ended, a `return` statement gives what it gave meanwhile. -/
theorem returnedValue_after {a b v : Session} {values : ValueSet}
    (hvalue : returnedValue execution r (engine depth) a = (.ok values, b)) (hevolves : b.Evolves t)
    (hbusy : t.memo.isRunning (.execution execution) = true) (hv : v.remembered = t.remembered)
    (later : Nat) :
    ∃ w, returnedValue execution r (engine (later + 1))
      (Session.memoSlot.update (·.finish (.execution execution) set) v) = (.ok values, w) := by
  have hmemo : v.memo = t.memo := congrArg (·.1) hv
  have hvalues : v.values = t.values := congrArg (·.2.1) hv
  obtain ⟨sofar, hfound⟩ := isRunning_iff.mp hbusy
  refine returnedValue_again hvalue (hevolves.answers.trans ?_) (fun q hq => ?_) ?_ later
  · have hpending : ∀ answer, t.memo.find? (.execution execution) ≠ some (.done answer) := by
      simp [hfound]
    exact keeps_of_ne hpending fun q hq => (find?_finish_of_ne hq).trans (by rw [hmemo])
  · exact (isRunning_congr (find?_finish_of_ne hq)).trans (hmemo ▸ hevolves.running q)
  · exact hvalues ▸ hevolves.values

/-- In an accepted source, the result of an execution has the values of every `return` that a path
through the body ends in, if no test around a `return` says anything and no earlier `return` is
hasty. -/
theorem run_includes_returns {source : Source} {m : Module} (hread : Module.ofSource source = .ok m)
    {tree : Nat} (hfn : fn ∈ (Place.root tree m).walk)
    (hadmits : s.Admits execution function fn body) (depth : Nat) :
    (∃ t, run execution (engine depth) s = (.error .nestedTooDeeply, t)) ∨
      ∃ set t, run execution (engine depth) s = (.ok set, t) ∧
        ((∀ stmt ∈ fn.returnStatements, ∀ test ∈ stmt.testsAround, t.Undecided execution test) →
          ∀ r, Path body (.returned r) →
          (∀ stmt, [stmt, r].Sublist fn.returnStatements → stmt.isHasty = false) →
            ∃ values u, returnedValue execution r (engine depth) t = (.ok values, u) ∧
              values.ids ⊆ set.ids) := by
  cases depth with
  | zero => exact .inl ⟨s, rfl⟩
  | succ depth =>
    obtain ⟨u, hu, ⟨-, t, -, hfailed⟩ | ⟨set, t, v, hreturns, hv, hrun⟩⟩ :=
      run_of_admits hadmits depth
    · exact .inl ⟨t, hfailed⟩
    refine .inr ⟨set, _, hrun, fun hundecided r hpath hhasty => ?_⟩
    obtain ⟨isAsync, colon, decorators, name, params, hform⟩ := hadmits.form
    obtain ⟨before, after, hsplit, hcertain⟩ := Module.returns_of_path hread hfn hform hpath
    have hscope := isScope_of_functionDef hform
    have hmemo : v.memo = t.memo := congrArg (·.1) hv
    have hevolves : u.Evolves t := evolves_of_run (steady_engine depth) hreturns
    have hbusy : t.memo.isRunning (.execution execution) = true := by
      have hstarted : u.memo = s.memo.start (.execution execution) none := congrArg (·.1) hu
      rw [hevolves.running, hstarted]
      exact isRunning_start.mpr (.inl rfl)
    -- The verdicts are those of the end, because what a test says is recorded and stays.
    have hverdict : ∀ stmt ∈ before ++ r :: after, ∀ a verdict b,
        stmt.reachability (check execution) (some fn) none (engine depth) a = (.ok verdict, b) →
        b.Evolves t →
          verdict = if stmt.flowsAround.any (·.form.leavesOpen) then .unsure else .reachable := by
      intro stmt hstmt a verdict b hreach hb
      rw [← hsplit] at hstmt
      obtain ⟨hwalk, hstatement⟩ := mem_walk_of_mem_returnStatements hform hstmt
      refine Module.verdict_of_undecided hread (mem_walk_of_mem_walk hfn hwalk) hstatement hfn
        hscope hreach hb ?_
      intro test htest verdict hfound
      refine hundecided stmt hstmt test htest verdict ?_
      exact (find?_finish_of_ne (by simp)).trans (hmemo ▸ hfound)
    have hopen : ∀ stmt ∈ before, stmt.flowsAround.any (·.form.leavesOpen) = true := by
      intro stmt hstmt
      refine any_leavesOpen (hcertain stmt hstmt) (hhasty stmt ?_)
      rw [hsplit]
      exact (singleton_sublist.mpr hstmt).append (singleton_sublist.mpr mem_cons_self)
    rw [returnsValue_eq (by simp [hsplit]), hsplit] at hreturns
    obtain ⟨a, values, b, hvalue, hb, hsub⟩ :=
      exists_returnedValue_of_returnValues hverdict hopen hreturns (.refl t)
    obtain ⟨w, hagain⟩ := returnedValue_after hvalue hb hbusy hv depth
    exact ⟨values, w, hagain, hsub⟩

end Infer

/-- A function that returns from a loop and behind it. -/
def Source.loopSample (isFor : Bool) : Source :=
  ⟨if isFor then "def f(a):\n for x in a: return 1\n return 2\n"
    else "def f(a):\n while a: return 1\n return 2\n", []⟩

/-- A module, a function in it and an execution of the function. -/
def Values.callItems (fn : Place) : List (Value Place) :=
  [.module { tree := some 0, names := ["t"] }, .function fn 0 none, .execution 1 0]

/-- A session that is about to execute a function. -/
def Session.ofCall (fn : Place) : Session where
  values := (({} : Values).internAll (·.map Place.key) (Values.callItems fn)).2

theorem Session.get?_ofCall (fn : Place) (id : ValueId) :
    (ofCall fn).values.get? id = (Values.callItems fn)[id]? := by
  refine Arena.get?_internAll ?_ id
  simp [Values.callItems, Value.map]

theorem Session.admits_ofCall {isAsync : Bool} {colon : Position} {name : Place}
    {decorators params body : List Place}
    (hform : fn.form = .functionDef isAsync colon decorators name params none body)
    (hplain : fn.isGenerator = false) :
    (ofCall fn).Admits 2 1 fn body := by
  have hget := get?_ofCall fn
  have hexecution : (ofCall fn).values.execution? 2 = some (1, 0) := by
    rw [Values.execution?, hget]
    rfl
  have hfunction : (ofCall fn).values.function? 1 = some (fn, 0, none) := by
    rw [Values.function?, hget]
    rfl
  have hmodule : (ofCall fn).values.root 0 = 0 := by
    rw [Values.root, Values.parent?, hget]
    rfl
  have hroot : (ofCall fn).values.root 2 = 0 := by
    rw [Values.root, Values.parent?, hget]
    simp [Values.callItems, hfunction, hmodule]
  have hroot' : (ofCall fn).values.root 1 = 0 := by
    rw [Values.root, Values.parent?, hget]
    simp [Values.callItems, hmodule]
  have hplainModule : (ofCall fn).values.module? 0 = some { tree := some 0, names := ["t"] } := by
    rw [Values.module?, hget]
    rfl
  refine ⟨⟨isAsync, colon, decorators, name, params, hform⟩, hplain, ⟨0, hexecution⟩,
    ⟨0, none, hfunction⟩, ?_, find?_empty, ?_⟩
  · rw [Values.isStub, hroot, hplainModule]
    rfl
  · have hforeign : (ofCall fn).values.isBuiltins 0 = false := by
      rw [Values.isBuiltins, hplainModule]
      decide +kernel
    rw [hroot', hforeign]
    simp [CallGuard.push, ofCall]

/-- The number that a `return` gives, and where it stands. -/
def Place.number? (p : Place) : Option (Place × Text) :=
  match p.form with
  | .returnStmt (some value) =>
    match value.node.form with
    | .int text => some (value, text)
    | _ => none
  | _ => none

theorem Place.number?_eq_some {p : Place} {found : Place × Text} (h : p.number? = some found) :
    p.form = .returnStmt (some found.1) ∧ found.1.node.form = .int found.2 := by
  unfold number? at h
  split at h
  · next value hform =>
    split at h
    · next text hint =>
      cases h
      exact ⟨hform, hint⟩
    · cases h
  · cases h

/-- The body of a function without a hint, if it has two statements. -/
def Place.twoStatements? (fn : Place) : Option (Place × Place) :=
  match fn.form with
  | .functionDef _ _ _ _ _ none [first, second] => some (first, second)
  | _ => none

theorem Place.twoStatements?_eq_some {found : Place × Place} (h : fn.twoStatements? = some found) :
    ∃ isAsync colon decorators name params,
      fn.form = .functionDef isAsync colon decorators name params none [found.1, found.2] := by
  unfold twoStatements? at h
  split at h
  · next isAsync colon decorators name params first second hform =>
    cases h
    exact ⟨isAsync, colon, decorators, name, params, hform⟩
  · cases h

/-- The function of the sample, its two `return` statements and the numbers that they return. -/
theorem Module.exists_loopSample (isFor : Bool) :
    ∃ m, Module.ofSource (.loopSample isFor) = .ok m ∧ ∃ fn ∈ (Place.root 0 m).walk,
      ∃ isAsync colon decorators name params loop second,
        fn.form = .functionDef isAsync colon decorators name params none [loop, second] ∧
        fn.isGenerator = false ∧
        ∃ inner two first rest one, loop.form.loop? = some (inner, []) ∧
        second.form = .returnStmt (some two) ∧
          two.node.form = .int "2" ∧ fn.returnStatements = first :: rest ∧
          first.form = .returnStmt (some one) ∧ one.node.form = .int "1" ∧ one.key ≠ two.key ∧
          (∀ stmt ∈ fn.returnStatements, stmt.testsAround = [] ∧ stmt.number?.isSome = true) ∧
          first.isHasty = isFor ∧ ∀ stmt ∈ rest, stmt.isHasty = false := by
  have hfound : (Module.ofSource (.loopSample isFor)).map
      (fun m => (Place.root 0 m).walk.any fun fn =>
      !fn.isGenerator &&
      fn.returnStatements.all (fun stmt => stmt.testsAround.isEmpty && stmt.number?.isSome) &&
      fn.returnStatements.tail.all (!·.isHasty) &&
      fn.twoStatements?.any fun body => body.1.form.loop?.any (·.2.isEmpty) &&
        fn.returnStatements.head?.any fun first => first.isHasty == isFor &&
          first.number?.any fun one => one.2 == Text.ofString "1" &&
            body.2.number?.any fun two => two.2 == Text.ofString "2" && one.1.key != two.1.key) =
              .ok true := by
    cases isFor <;> decide +kernel
  obtain ⟨m, h, hany⟩ := exists_of_map_eq_ok hfound
  simp only [any_eq_true, Bool.and_eq_true, Option.any_eq_true, Bool.not_eq_true', all_eq_true,
    List.isEmpty_iff, beq_iff_eq, bne_iff_ne] at hany
  obtain ⟨fn, hfn, ⟨⟨hplain, hstmts⟩, hothers⟩, body, hbody, ⟨parts, hloop, hnil⟩, first, hfirst,
    hhasty, one, hone, hfst, two, htwo, hsnd, hne⟩ := hany
  obtain ⟨isAsync, colon, decorators, name, params, hform⟩ := Place.twoStatements?_eq_some hbody
  obtain ⟨rest, hreturns⟩ := List.head?_eq_some_iff.mp hfirst
  refine ⟨m, h, fn, hfn, isAsync, colon, decorators, name, params, body.1, body.2, hform, hplain,
    parts.1, two.1, first, rest, one.1, ?_, (Place.number?_eq_some htwo).1,
    hsnd ▸ (Place.number?_eq_some htwo).2, hreturns, (Place.number?_eq_some hone).1,
    hfst ▸ (Place.number?_eq_some hone).2, hne, hstmts, hhasty, ?_⟩
  · rw [hloop, ← hnil]
  · rwa [hreturns, List.tail_cons] at hothers

namespace Infer

variable (depth : Nat)

theorem exists_returnedValue {stmt : Place} (h : stmt.number?.isSome = true) (s : Session) :
    ∃ set t, returnedValue execution stmt (engine (depth + 1)) s = (.ok set, t) := by
  obtain ⟨found, hfound⟩ := Option.isSome_iff_exists.mp h
  obtain ⟨hform, hint⟩ := number?_eq_some hfound
  rw [returnedValue_of_form hform]
  exact exists_eval_int depth hint s

/-- An execution of a function that returns numbers only and without tests succeeds. -/
theorem exists_returnValues {stmts : List Place}
    (hreach : ∀ stmt ∈ stmts, ∃ verdict, stmt.reachability (check execution) (some fn) none =
      pure verdict) (hint : ∀ stmt ∈ stmts, stmt.number?.isSome = true) (s : Session) :
    ∃ set t, returnValues execution fn stmts (engine (depth + 1)) s = (.ok set, t) := by
  induction stmts generalizing s with
  | nil => exact ⟨∅, s, rfl⟩
  | cons stmt rest ih =>
    obtain ⟨⟨verdict, hverdict⟩, hreach⟩ := forall_mem_cons.mp hreach
    obtain ⟨hstmt, hint⟩ := forall_mem_cons.mp hint
    rw [returnValues_cons, hverdict, pure_bind]
    split
    · obtain ⟨set, t, hrest⟩ := ih hreach hint (s.debug _)
      exact ⟨set, t, (bind_of_ok rfl).trans hrest⟩
    · obtain ⟨values, t, hvalue⟩ := exists_returnedValue depth hstmt s
      rw [bind_of_ok hvalue]
      split
      · exact ⟨values, t, rfl⟩
      · obtain ⟨others, u, hrest⟩ := ih hreach hint t
        exact ⟨_, u, bind_of_ok hrest⟩

theorem exists_returnsValue {source : Source} {m : Module} (hread : Module.ofSource source = .ok m)
    {tree : Nat} (hfn : fn ∈ (Place.root tree m).walk) {isAsync : Bool} {colon : Position}
    {name : Place} {decorators params body : List Place} {returns : Option Place}
    (hform : fn.form = .functionDef isAsync colon decorators name params returns body)
    (hstmts : ∀ stmt ∈ fn.returnStatements, stmt.testsAround = [] ∧ stmt.number?.isSome = true)
    (s : Session) :
    ∃ set t, returnsValue execution fn (engine (depth + 1)) s = (.ok set, t) := by
  have hscope := isScope_of_functionDef hform
  by_cases hnil : fn.returnStatements = []
  · rw [returnsValue, hnil]
    exact ⟨_, _, rfl⟩
  · rw [returnsValue_eq hnil]
    refine exists_returnValues depth (fun stmt hstmt => ?_)
      (fun stmt hstmt => (hstmts stmt hstmt).2) s
    have hwalk := (mem_walk_of_mem_returnStatements hform hstmt).1
    exact ⟨_, Module.reachability_of_testsAround_eq_nil hread (mem_walk_of_mem_walk hfn hwalk)
      hfn hscope (hstmts stmt hstmt).1 (check execution)⟩

theorem run_includes_returns_loopSample :
    ∃ m, Module.ofSource (.loopSample false) = .ok m ∧ ∃ fn ∈ (Place.root 0 m).walk, ∃ body r,
      (Session.ofCall fn).Admits 2 1 fn body ∧ Path body (.returned r) ∧
      (∀ stmt ∈ fn.returnStatements, stmt.testsAround = [] ∧ stmt.isHasty = false) ∧
      ∀ depth, ∃ set t values u, run 2 (engine (depth + 2)) (Session.ofCall fn) = (.ok set, t) ∧
        returnedValue 2 r (engine (depth + 2)) t = (.ok values, u) ∧ values.ids ⊆ set.ids := by
  obtain ⟨m, h, fn, hfn, isAsync, colon, decorators, name, params, loop, second, hform, hplain,
    inner, two, first, rest, one, hloop, hsecond, htwo, hreturns, hfirst, hone, hne, hstmts, hhasty,
    hothers⟩ := Module.exists_loopSample false
  have hadmits := Session.admits_ofCall hform hplain
  have hpath : Path [loop, second] (.returned second) :=
    .next (.done hloop .nil) (.returned hsecond)
  have hpatient : ∀ stmt ∈ fn.returnStatements, stmt.testsAround = [] ∧ stmt.isHasty = false := by
    intro stmt hstmt
    refine ⟨(hstmts stmt hstmt).1, ?_⟩
    rw [hreturns] at hstmt
    rcases mem_cons.mp hstmt with rfl | hstmt
    · exact hhasty
    · exact hothers stmt hstmt
  refine ⟨m, h, fn, hfn, _, second, hadmits, hpath, hpatient, fun depth => ?_⟩
  rcases run_includes_returns h hfn hadmits (depth + 2) with
    ⟨t, hfailed⟩ | ⟨set, t, hrun, hincludes⟩
  · obtain ⟨u, -, ⟨t', v, hreturned, -⟩ | ⟨set, t', v, -, -, hrun⟩⟩ :=
      run_of_admits hadmits (depth + 1)
    · obtain ⟨set, w, hok⟩ :=
        exists_returnsValue depth h hfn hform (fun stmt hstmt => hstmts stmt hstmt) u
      cases hok.symm.trans hreturned
    · cases hrun.symm.trans hfailed
  · have hundecided : ∀ stmt ∈ fn.returnStatements, ∀ test ∈ stmt.testsAround, t.Undecided 2
        test := by
      intro stmt hstmt test htest
      simp [(hpatient stmt hstmt).1] at htest
    obtain ⟨values, u, hvalue, hsub⟩ :=
      hincludes hundecided second hpath fun stmt hstmt => (hpatient stmt (hstmt.subset (by simp))).2
    exact ⟨set, t, values, u, hrun, hvalue, hsub⟩

/-- A `for` loop that returns hides the `return` behind it, though the loop may not run at all. -/
theorem run_omits_return_loopSample :
    ∃ m, Module.ofSource (.loopSample true) = .ok m ∧ ∃ fn ∈ (Place.root 0 m).walk, ∃ body r,
      (Session.ofCall fn).Admits 2 1 fn body ∧ Path body (.returned r) ∧
      (∀ stmt ∈ fn.returnStatements, stmt.testsAround = []) ∧
      ∀ depth, ∃ set t values u, run 2 (engine (depth + 2)) (Session.ofCall fn) = (.ok set, t) ∧
        returnedValue 2 r (engine (depth + 2)) t = (.ok values, u) ∧ ¬ values.ids ⊆ set.ids := by
  obtain ⟨m, h, fn, hfn, isAsync, colon, decorators, name, params, loop, second, hform, hplain,
    inner, two, first, rest, one, hloop, hsecond, htwo, hreturns, hfirst, hone, hne, hstmts, hhasty,
    hothers⟩ := Module.exists_loopSample true
  have hadmits := Session.admits_ofCall hform hplain
  have hpath : Path [loop, second] (.returned second) :=
    .next (.done hloop .nil) (.returned hsecond)
  refine ⟨m, h, fn, hfn, _, second, hadmits, hpath, fun stmt hstmt => (hstmts stmt hstmt).1,
    fun depth => ?_⟩
  have hmem : first ∈ fn.returnStatements := by simp [hreturns]
  have hwalk := mem_walk_of_mem_walk hfn (mem_walk_of_mem_returnStatements hform hmem).1
  have hreach := Module.reachability_of_testsAround_eq_nil h hwalk hfn
    (isScope_of_functionDef hform) (hstmts first hmem).1 (check 2)
  rw [any_leavesOpen_of_isHasty hhasty, if_neg (by simp)] at hreach
  -- The execution gives the number of the loop only.
  obtain ⟨u, hu, hcases⟩ := run_of_admits hadmits (depth + 1)
  have hmemo : u.memo = ({} : Memo Question Answer).start (.execution 2) none := congrArg (·.1) hu
  have hnew : u.memo.find? (.eval one.key 2) = none := by
    rw [hmemo, find?_start_of_ne (by simp), find?_empty]
  obtain ⟨t, hvalue, hvalues, hanswers⟩ := eval_int_of_new depth hone hnew
  rw [returnsValue_of_reachable hreturns hreach, returnedValue_of_form hfirst, hvalue] at hcases
  obtain ⟨t, v, herror, -⟩ | ⟨set, t, v, hok, hv, hrun⟩ := hcases
  · cases herror
  cases hok
  -- The number behind the loop is a value of its own.
  let inside := u.intern (.ofInt "1")
  let last := Session.memoSlot.update (·.finish (.execution 2) (.single inside.1)) v
  let behind := last.intern (.ofInt (Text.ofString "2"))
  have hlater : last.memo.find? (.eval two.key 2) = none := by
    refine (find?_finish_of_ne (by simp)).trans ?_
    rw [show v.memo = t.memo from congrArg (·.1) hv, hanswers _ (by simpa using hne.symm), hmemo,
      find?_start_of_ne (by simp), find?_empty]
  obtain ⟨w, hvalue', -⟩ := eval_int_of_new (depth + 1) htwo hlater
  have hdiffer : behind.1 ≠ inside.1 := by
    have hconsistent : u.values.Consistent := by
      rw [show u.values = (Session.ofCall fn).values from congrArg (·.2.1) hu]
      exact (Arena.holds_internAll _ _).consistent
    have hkept : last.values = inside.2.values :=
      (show v.values = t.values from congrArg (·.2.1) hv).trans hvalues
    have htexts : Text.ofString "1" ≠ Text.ofString "2" := by decide +kernel
    change (Arena.intern (·.map Place.key) last.values _).1 ≠ _
    rw [hkept]
    exact hconsistent.intern_ne (by simpa [Value.ofInt, Value.map] using htexts)
  refine ⟨.single inside.1, last, .single behind.1, w, hrun,
    (returnedValue_of_form hsecond).symm ▸ hvalue', ?_⟩
  exact fun hsub => hdiffer (by simpa [ValueSet.single] using hsub)

end Infer

end NameInference

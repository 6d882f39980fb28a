import NameInference.Proofs.Session.Stability

/-!
# Answers and failures

An answer through the memo is recorded, unless it stands in for one that is being computed. Failures
that can be recovered from end where a question is asked, so steps that only ask fail in one way: by
nesting too deeply.
-/

namespace NameInference

open MemoSlot

variable {context : ValueId} {node : Place} {depth : Nat}

namespace Session

variable {s t : Session} {q : Question}

/-- An answer is the fallback of a question that is being computed, or else it is recorded. -/
theorem answer_cases {recovers : Failure → Bool} {fallback a : Answer q}
    {compute : SessionM (Answer q)}
    (hrun : memoSlot.answer recovers q fallback compute s = (.ok a, t)) :
    s.memo.isRunning q = true ∧ a = fallback ∨ t.memo.find? q = some (.done a) := by
  cases hidle : s.memo.isRunning q with
  | false => exact .inr (find?_of_answer hidle hrun)
  | true =>
    obtain ⟨sofar, hfound⟩ := Memo.isRunning_iff.mp hidle
    rw [answer_of_running hfound] at hrun
    cases hrun
    exact .inl ⟨rfl, rfl⟩

/-- A computation that fails in a way that can be recovered from gives the fallback. -/
theorem eq_nestedTooDeeply_of_answer {fallback : Answer q} {compute : SessionM (Answer q)}
    {e : Failure}
    (hrun : memoSlot.answer Failure.isRecoverable q fallback compute s = (.error e, t)) :
    e = .nestedTooDeeply := by
  have hending := memoSlot.answer_ending Failure.isRecoverable fallback compute s
  rw [hrun] at hending
  cases hending with
  | failed _ _ hforeign =>
    cases e with
    | nestedTooDeeply => rfl
    | unreadable | malformed => cases hforeign

end Session

/-- The value of a number. -/
def Value.ofInt (text : Text) : Value Place := .compiled "int" text false

namespace Infer

variable {α β : Type} {calls : Calls} {s t : Session}

/-- Indenting the trace changes nothing else. -/
theorem indented_apply {step : Infer α} : indented step calls s =
    let out := step calls { s with trace := s.trace.indent }
    (out.1, { out.2 with trace := out.2.trace.outdent }) := by
  unfold indented
  rw [bind_of_ok (a := ()) (t := { s with trace := s.trace.indent }) rfl, tryFinally_apply]
  rfl

/-- The step fails only by nesting too deeply. -/
def FailsDeep (step : Infer α) (calls : Calls) : Prop :=
  ∀ s e t, step calls s = (.error e, t) → e = .nestedTooDeeply

theorem FailsDeep.bind {step : Infer α} {next : α → Infer β} (hstep : FailsDeep step calls)
    (hnext : ∀ a, FailsDeep (next a) calls) : FailsDeep (step >>= next) calls := by
  intro s e t hrun
  rw [bind_apply] at hrun
  cases hfirst : step calls s with
  | mk outcome u =>
    rw [hfirst] at hrun
    cases outcome with
    | ok a => exact hnext a u e t hrun
    | error e' =>
      cases hrun
      exact hstep s e _ hfirst

/-- A step that always gives a result. -/
theorem failsDeep_of_ok {step : Infer α} (h : ∀ s, ∃ a t, step calls s = (.ok a, t)) :
    FailsDeep step calls := by
  intro s e t hrun
  obtain ⟨a, u, hok⟩ := h s
  cases hok.symm.trans hrun

theorem failsDeep_pure (a : α) : FailsDeep (pure a) calls := failsDeep_of_ok fun s => ⟨a, s, rfl⟩

theorem failsDeep_intern (value : Value Place) : FailsDeep (intern value) calls :=
  failsDeep_of_ok fun _ => ⟨_, _, rfl⟩

theorem failsDeep_noneValue : FailsDeep noneValue calls :=
  (failsDeep_intern _).bind fun _ => failsDeep_pure _

theorem failsDeep_debug (message : Session → Text) : FailsDeep (debug message) calls :=
  failsDeep_of_ok fun _ => ⟨_, _, rfl⟩

theorem FailsDeep.ite {c : Prop} [Decidable c] {yes no : Infer α} (hyes : FailsDeep yes calls)
    (hno : FailsDeep no calls) : FailsDeep (if c then yes else no) calls := by
  split
  · exact hyes
  · exact hno

theorem failsDeep_eval (context : ValueId) (node : Place) (depth : Nat) :
    FailsDeep (eval context node) (engine depth) := by
  intro s e t hrun
  cases depth with
  | zero => cases hrun; rfl
  | succ depth => exact Session.eq_nestedTooDeeply_of_answer hrun

theorem failsDeep_check (context : ValueId) (node : Place) (depth : Nat) :
    FailsDeep (check context node) (engine depth) := by
  intro s e t hrun
  cases depth with
  | zero => cases hrun; rfl
  | succ depth => exact Session.eq_nestedTooDeeply_of_answer hrun

/-- A test is unsure while it is being evaluated; otherwise what is known about it is recorded. -/
theorem check_cases {verdict : Reachability}
    (hrun : check context node (engine depth) s = (.ok verdict, t)) :
    verdict = .unsure ∨ t.memo.find? (.test node.key context) = some (.done verdict) := by
  cases depth with
  | zero => cases hrun
  | succ depth => exact (Session.answer_cases hrun).imp_left And.right

/-- An expression has no value while it is being evaluated; otherwise its values are recorded. -/
theorem eval_cases {set : ValueSet}
    (hrun : eval context node (engine depth) s = (.ok set, t)) :
    s.memo.isRunning (.eval node.key context) = true ∧ set = ∅ ∨
      t.memo.find? (.eval node.key context) = some (.done set) := by
  cases depth with
  | zero => cases hrun
  | succ depth => exact Session.answer_cases hrun

/-- An expression has the same values in every later session. -/
theorem eval_again {set : ValueSet} {u : Session}
    (hrun : eval context node (engine depth) s = (.ok set, t)) (hkeeps : t.memo.Keeps u.memo)
    (hrunning : u.memo.isRunning (.eval node.key context) = s.memo.isRunning
      (.eval node.key context)) (later : Nat) :
    ∃ v, eval context node (engine (later + 1)) u = (.ok set, v) := by
  rcases eval_cases hrun with ⟨hbusy, rfl⟩ | hrecorded
  · obtain ⟨sofar, hfound⟩ := Memo.isRunning_iff.mp (hrunning.trans hbusy)
    exact ⟨_, answer_of_running hfound⟩
  · exact ⟨_, answer_of_done (hkeeps _ _ hrecorded)⟩

/-- A value has the same handle as long as values are kept. -/
theorem intern_again {value : Value Place} {id : ValueId} {u : Session}
    (hrun : intern value calls s = (.ok id, t)) (hvalues : t.values.Keeps u.values)
    (later : Calls) : ∃ v, intern value later u = (.ok id, v) := by
  have hintern := intern_eq_of_run hrun
  have hid : (Arena.intern (·.map Place.key) s.values value).1 = id := congrArg Prod.fst hintern
  have hkept : (Arena.intern (·.map Place.key) s.values value).2 = t.values :=
    congrArg (fun out : ValueId × Session => out.2.values) hintern
  have hagain : (u.intern value).1 = id := by
    rw [← hid]
    exact congrArg Prod.fst (hkept ▸ hvalues : Arena.Keeps _ _ u.values).intern_again
  exact ⟨(u.intern value).2, by rw [← hagain]; rfl⟩

variable {context : ValueId} {node : Place} {text : Text} (depth : Nat)

theorem computeEval_int (hform : node.node.form = .int text) (s : Session) :
    computeEval context node calls s =
    (.ok (.single (s.intern (.ofInt text)).1), (s.intern (.ofInt text)).2) := by
  have hplace : node.form = .int text := by rw [Place.form, hform]; rfl
  rw [computeEval, hplace]
  dsimp only
  rw [literal?, hform]
  rfl

/-- A number is evaluated at once, if it has not been before: its value is interned, and its own
answer recorded. -/
theorem eval_int_of_new (hform : node.node.form = .int text)
    (hnew : s.memo.find? (.eval node.key context) = none) :
    ∃ t, eval context node (engine (depth + 1)) s = (.ok (.single (s.intern (.ofInt text)).1), t) ∧
      t.values = (s.intern (.ofInt text)).2.values ∧
      ∀ q, q ≠ .eval node.key context → t.memo.find? q = s.memo.find? q := by
  refine ⟨_, answer_of_ok hnew (computeEval_int hform _), rfl, fun q hq => ?_⟩
  exact (Memo.find?_finish_of_ne hq).trans (Memo.find?_start_of_ne hq)

theorem exists_eval_int (hform : node.node.form = .int text) (s : Session) :
    ∃ set t, eval context node (engine (depth + 1)) s = (.ok set, t) := by
  cases hfound : s.memo.find? (.eval node.key context) with
  | none =>
    obtain ⟨t, hrun, -⟩ := eval_int_of_new depth hform hfound
    exact ⟨_, t, hrun⟩
  | some entry =>
    cases entry with
    | done set => exact ⟨set, _, answer_of_done hfound⟩
    | running sofar => exact ⟨_, _, answer_of_running hfound⟩

end Infer

end NameInference

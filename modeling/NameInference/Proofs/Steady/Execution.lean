import NameInference.Proofs.Steady.Lookup

/-!
# Executing is steady

Arguments are taken apart and matched, hints are read, and functions and classes are executed.
Issues are recorded on the way, and the guard on executions is left as it is entered.
-/

namespace NameInference.Infer

variable (id cls context callee execution : ValueId) (node fn param : Place)
  (list : ArgumentList Place) (arguments : ArgumentsId) (bindings : TypeVarBindings) (frame : Frame)

instance (arg : Place) : Steady (unpackPositional context arg) := by
  unfold unpackPositional
  split
  · refine .after fun _ => .after fun _ => ?_
    split <;> infer_instance
  · infer_instance

instance (keyword : Keyword Place) : Steady (unpackKeyword context keyword) := by
  unfold unpackKeyword
  refine .ite inferInstance (.after fun _ => .after fun _ => ?_)
  split <;> infer_instance

instance : Steady (unpack list) := by
  unfold unpack
  split <;> infer_instance

instance : Steady (matchArguments fn list) := by
  unfold matchArguments
  refine .after fun _ => ?_
  split <;> infer_instance

instance (issue : Issue) : Steady (modify (Session.addIssue issue) : Infer Unit) :=
  .modify (Session.evolves_addIssue issue)

instance : Steady (recordIssues fn list) := by unfold recordIssues; infer_instance

instance (argument : Argument ArgumentSource) : Steady (argumentValue argument) := by
  unfold argumentValue
  split <;> infer_instance

instance (code : Text) : Steady (hintExpr? node code) := by
  have hstore (module : Module) : Steady (modifyGet (Session.storeTree module []) : Infer Nat) :=
    .modifyGet (Session.evolves_storeTree module [])
  have hkeep (expr : Option Place) :
      Steady (modify fun s => { s with hintTrees := s.hintTrees.insert node.key expr } :
        Infer Unit) :=
    .modify fun _ => .of_same rfl
  unfold hintExpr?
  refine .after fun _ => ?_
  split
  · infer_instance
  · refine .after fun _ => ?_
    extract_lets join
    have hjoin (expr : Option Place) : Steady (join expr) := inferInstanceAs (Steady (join expr))
    split
    · infer_instance
    · refine .after fun _ => ?_
      split
      · split <;> infer_instance
      · infer_instance

instance (set : ValueSet) :
    Steady (instancesOrValues set) := by unfold instancesOrValues; infer_instance

instance : Steady (hintValue bindings id) := by
  unfold hintValue
  refine .after fun _ => ?_
  split
  case h_3 => split <;> infer_instance
  all_goals infer_instance

instance : Steady (executeHint context node bindings) := by
  unfold executeHint
  extract_lets join
  have hjoin (expr : Option Place) : Steady (join expr) := by
    unfold join
    split <;> infer_instance
  split <;> infer_instance

instance : Steady (frame? execution) := by unfold frame?; infer_instance

instance : Steady (defaultValue frame param) := by
  unfold defaultValue
  split <;> infer_instance

instance : Steady (receiverValue? frame param) := by
  unfold receiverValue?
  dsimp only
  split
  case h_3 => infer_instance
  all_goals
    refine .ite inferInstance (.ite inferInstance (.ite inferInstance ?_))
    split <;> infer_instance

instance : Steady (anonymousValue frame param) := by
  unfold anonymousValue
  refine .after fun _ => ?_
  split
  · infer_instance
  · split <;> infer_instance

instance : Steady (parameterValue execution param) := by
  unfold parameterValue
  refine .after fun _ => ?_
  split
  · infer_instance
  · refine .ite inferInstance (.after fun _ => ?_)
    dsimp only
    split
    · infer_instance
    · split <;> infer_instance

instance (defining : ValueId) : Steady (bindTypeVars execution defining bindings param) := by
  unfold bindTypeVars
  split <;> infer_instance

instance : Steady (executionTypeVars execution) := by
  unfold executionTypeVars
  refine .after fun _ => ?_
  split
  · infer_instance
  · refine .after fun _ => ?_
    split <;> infer_instance

instance : Steady (computeParam param execution) := by
  unfold computeParam
  refine .after fun _ => ?_
  split
  · infer_instance
  · extract_lets join
    have hjoin (promised : ValueSet) : Steady (join promised) :=
      inferInstanceAs (Steady (join promised))
    split <;> infer_instance

instance : Steady (enclosingMethod? context) := by unfold enclosingMethod?; infer_instance

instance (args : List Place) : Steady (superInstance context args) := by
  unfold superInstance
  extract_lets join
  have hjoin (start : Option (ValueId × Option ValueId)) : Steady (join start) := by
    unfold join
    split
    · infer_instance
    · refine .after fun _ => .after fun _ => .after fun _ => ?_
      split <;> infer_instance
  split <;> infer_instance

instance : Steady (specialInstance? cls list) := by
  unfold specialInstance?
  split
  · infer_instance
  · refine .after fun _ => ?_
    dsimp only
    split
    · refine .ite inferInstance (.ite inferInstance (.ite ?_ inferInstance))
      split <;> infer_instance
    · infer_instance

instance (receiver : ValueId) : Steady (recordInit cls receiver list) := by
  unfold recordInit
  refine .after fun _ => .after fun _ => .bind (.forIn fun _ _ => ?_) inferInstance
  split <;> infer_instance

instance : Steady (instantiate cls arguments) := by
  unfold instantiate
  refine .after fun _ => .after fun _ => ?_
  split <;> infer_instance

instance : Steady (computeExecute callee arguments) := by
  unfold computeExecute
  refine .after fun _ => ?_
  split
  case h_4 => split <;> infer_instance
  all_goals infer_instance

instance (stmts : List Place) : Steady (returnValues execution fn stmts) := by
  induction stmts with
  | nil => exact inferInstanceAs (Steady (pure ∅))
  | cons stmt rest ih =>
    unfold returnValues
    refine .after fun _ => ?_
    split
    · infer_instance
    · extract_lets join
      have hjoin (values : ValueSet) : Steady (join values) :=
        inferInstanceAs (Steady (join values))
      split <;> infer_instance

instance : Steady (bodyValue execution frame) := by
  unfold bodyValue
  split
  · infer_instance
  · extract_lets join
    have hjoin (promised : ValueSet) : Steady (join promised) := by
      refine .ite inferInstance (.after fun _ => .ite inferInstance ?_)
      split <;> infer_instance
    split <;> infer_instance
  · infer_instance

instance (step : Infer ValueSet) [Steady step] : Steady (guarded callee node step) := by
  have hpop : Steady (modify fun s => { s with guard := s.guard.pop } : Infer Unit) :=
    .modify fun _ => .of_same rfl
  unfold guarded
  refine .after fun _ => .bind (.modifyGet fun _ => .of_same rfl) fun _ => .bind (.tryFinally
    (.ite (.after fun _ => ?_) (.after fun _ => ?_)) hpop) fun outcome => ?_
  -- A skipped execution returns from within the block, which makes its values an early outcome.
  · exact inferInstanceAs (Steady (pure (Except.error ∅)))
  · exact inferInstanceAs (Steady (pure (Except.ok _)))
  · cases outcome <;> exact inferInstanceAs (Steady (pure _))

instance : Steady (computeExecution execution) := by
  unfold computeExecution
  refine .after fun _ => .after fun _ => ?_
  split <;> infer_instance

end NameInference.Infer

import NameInference.Proofs.Class.Collect
import NameInference.Proofs.Steady.Execution

/-!
# Evaluating is steady

Bindings, found names and expressions are evaluated. With this, every computation behind a question
is steady, and so are the answers that the memo gives. Each depth of the engine leads back to the
depth below only, so all of them are steady.
-/

namespace NameInference

namespace Infer

variable (id cls context value scope : ValueId) (node target wanted display index : Place)
  (values : ValueSet) (name : FoundName) (text : Text)

instance (i : Nat) : Steady (itemsAt values i) := by
  unfold itemsAt
  refine .collect fun id => .after fun _ => ?_
  split
  · split
    case h_1 | h_2 => split <;> infer_instance
    all_goals infer_instance
  · infer_instance

instance (depth : Nat) : Steady (unpackTarget depth values target wanted) := by
  induction depth generalizing values target with
  | zero => exact inferInstanceAs (Steady (pure values))
  | succ depth ih =>
    unfold unpackTarget
    refine .ite inferInstance ?_
    split
    case h_1 | h_2 => split <;> infer_instance
    all_goals infer_instance

instance : Steady (unpackTo values target wanted) := by unfold unpackTo; infer_instance

instance (handler : Place) : Steady (exceptionInstances context handler) := by
  unfold exceptionInstances
  split <;> infer_instance

instance (decorator : Place) :
    Steady (decoratorKind? decorator values) := by unfold decoratorKind?; infer_instance

instance : Steady (isIdentityDecorator values) := by unfold isIdentityDecorator; infer_instance

instance (decorator : Place) : Steady (accessorProperties context decorator) := by
  unfold accessorProperties
  split <;> infer_instance

instance (decorator : Place) : Steady (applyDecorator context values decorator) := by
  unfold applyDecorator
  refine .after fun _ => .ite inferInstance (.after fun _ => .after fun _ => ?_)
  split <;> infer_instance

instance (decorators : List Place) : Steady (applyDecorators context decorators id) := by
  unfold applyDecorators
  infer_instance

instance (lookup : ValueId) (receiver : Option ValueId) :
    Steady (bindMember id lookup receiver) := by
  unfold bindMember
  refine .after fun _ => ?_
  split <;> infer_instance

instance : Steady (sameKind values) := by unfold sameKind; infer_instance

instance : Steady (enter value) := by unfold enter; infer_instance

instance (kind : BindingKind) : Steady (assignedValue context node kind target) := by
  unfold assignedValue
  split
  case h_1 | h_2 =>
    extract_lets join
    have hjoin (promised : ValueSet) : Steady (join promised) := by
      refine .ite inferInstance ?_
      split
      · infer_instance
      · refine .after fun _ => ?_
        split <;> infer_instance
    split <;> infer_instance
  case h_7 => split <;> infer_instance
  all_goals infer_instance

instance (b : Binding) : Steady (computeBinding b context) := by
  unfold computeBinding
  refine .indented ?_
  split <;> infer_instance

instance (receiver : ValueId) (method : Place) : Steady (selfArguments receiver method) := by
  unfold selfArguments
  infer_instance

instance : Steady (inferName name) := by
  unfold inferName
  split <;> infer_instance

instance (names : List FoundName) :
    Steady (inferNames names) := by unfold inferNames; infer_instance

instance : Steady (nameOfValue id) := by unfold nameOfValue; infer_instance

instance (source : ValueId) :
    Steady (importTargets source text) := by unfold importTargets; infer_instance

instance (item : Place) : Steady (fromTargets context item) := by
  unfold fromTargets
  split
  · split <;> infer_instance
  · infer_instance

instance : Steady (computeTargets name) := by
  unfold computeTargets
  extract_lets join
  have hjoin (targets : List FoundName) : Steady (join targets) :=
    inferInstanceAs (Steady (join targets))
  split
  case h_1 | h_2 => split <;> infer_instance
  all_goals infer_instance

instance (origin : Option Place) : Steady (computeAttr id text origin) := by
  unfold computeAttr
  refine .after fun _ => .after fun _ => .ite inferInstance (.after fun _ => ?_)
  split <;> infer_instance

instance : Steady (truthOf values) := by unfold truthOf; infer_instance

instance : Steady (computeTest context node) := by
  unfold computeTest
  refine .after fun _ => .after fun _ => ?_
  split <;> infer_instance

instance (name : String) :
    Steady (displayInstance context display name) := by unfold displayInstance; infer_instance

instance (negative : Bool) : Steady (signedValue negative id) := by
  unfold signedValue
  refine .after fun _ => ?_
  split <;> infer_instance

instance (op : UnaryOp) : Steady (evalUnary op values) := by
  unfold evalUnary
  split
  · refine .after fun _ => ?_
    split <;> infer_instance
  all_goals infer_instance

instance : Steady (integerIndex? context index) := by unfold integerIndex?; infer_instance

instance (entries : List (Entry Place)) : Steady (subscriptEntries scope entries values) := by
  unfold subscriptEntries
  refine .bind (.foldlM fun _ _ => ?_) inferInstance
  dsimp only
  split <;> infer_instance

instance : Steady (subscriptDisplay id cls display scope index context) := by
  unfold subscriptDisplay
  split
  case h_4 | h_5 =>
    refine .ite inferInstance (.ite inferInstance (.after fun _ => ?_))
    split <;> infer_instance
  all_goals infer_instance

instance (packed : List ValueSet) : Steady (subscriptPacked cls packed index context) := by
  unfold subscriptPacked
  infer_instance

instance :
    Steady (subscriptByMethod id index context) := by unfold subscriptByMethod; infer_instance

instance : Steady (subscriptOne id index context) := by
  unfold subscriptOne
  refine .after fun _ => ?_
  split <;> infer_instance

instance : Steady (subscript values index context) := by unfold subscript; infer_instance

instance : Steady (displayItems? display scope) := by
  unfold displayItems?
  split
  case h_3 | h_4 | h_5 =>
    refine .map (.collect fun _ => ?_)
    split <;> infer_instance
  all_goals infer_instance

instance : Steady (iterateByMethod id) := by unfold iterateByMethod; infer_instance

instance : Steady (computeIteration id) := by
  unfold computeIteration
  refine .after fun _ => ?_
  split
  · extract_lets join
    have hjoin (items : Option ValueSet) : Steady (join items) := by
      unfold join
      split <;> infer_instance
    split <;> infer_instance
  all_goals infer_instance

instance : Steady (readName context node text) := by unfold readName; infer_instance

instance (value : Place) : Steady (evalSubscript context value index) := by
  unfold evalSubscript
  refine .after fun _ => ?_
  extract_lets join
  have hjoin (special : Option ValueSet) : Steady (join special) := by
    unfold join
    split <;> infer_instance
  split <;> infer_instance

instance : Steady (computeEval context node) := by
  have hliteral : Steady (do
      match ← literal? node with
      | some id => return .single id
      | none => builtinInstance "str" : Infer ValueSet) := by
    refine .after fun _ => ?_
    split <;> infer_instance
  unfold computeEval
  split
  case h_17 => split <;> infer_instance
  all_goals infer_instance

theorem steady_compute (request : Request) : Steady (compute request) := by
  cases request with
  | eval node context => exact inferInstanceAs (Steady (computeEval context node))
  | binding b context => exact inferInstanceAs (Steady (computeBinding b context))
  | param p execution => exact inferInstanceAs (Steady (computeParam p execution))
  | execution execution => exact inferInstanceAs (Steady (computeExecution execution))
  | iteration value => exact inferInstanceAs (Steady (computeIteration value))
  | bases cls => exact inferInstanceAs (Steady (computeBases cls))
  | metaclasses cls => exact inferInstanceAs (Steady (computeMetaclasses cls))
  | typeVars cls => exact inferInstanceAs (Steady (computeTypeVars cls))
  | test node context => exact inferInstanceAs (Steady (computeTest context node))
  | implementation names => exact inferInstanceAs (Steady (computeImplementation names))
  | importing names => exact inferInstanceAs (Steady (computeImport names))
  | descriptor names implementation parent =>
    exact inferInstanceAs (Steady (computeDescriptor names implementation parent))
  | order | starModules => exact inferInstanceAs (Steady (pure []))

/-- Every answer through the memo is steady. -/
theorem steady_ask (request : Request) : Steady (answer request) where
  evolves calls hcalls := by
    cases request with
    | order cls => exact fun s => (answer_order_ending cls calls s).evolves hcalls
    | starModules module =>
      have hgrow (f : List ValueId → List ValueId) :
          Steady (fun _ => Session.memoSlot.grow (.starModules module) f : Infer Unit) :=
        ⟨fun _ _ => Session.evolves_grow (q := .starModules module) (by simp) f⟩
      have hcompute : Steady (computeStarModules module fun f _ =>
        Session.memoSlot.grow (.starModules module) f) :=
        inferInstance
      exact SessionM.steady_generate (by simp) (hcompute.evolves calls hcalls)
    | _ =>
      exact SessionM.steady_answer (by simp [Request.key]) ((steady_compute _).evolves calls hcalls)

end Infer

/-- The engine is steady at every depth. -/
theorem steady_engine (depth : Nat) : (engine depth).Steady := by
  induction depth with
  | zero =>
    exact
      { ask := fun _ s => .refl s
        bases := fun _ _ _ _ hrun => by cases hrun
        order := fun _ _ _ _ hrun => by cases hrun
        attr := fun _ _ _ s => .refl s
        execute := fun _ _ s => .refl s
        layers := fun _ _ _ _ s => .refl s
        targets := fun _ s => .refl s }
  | succ depth ih =>
    exact
      { ask := fun request => (Infer.steady_ask request).evolves _ ih
        bases := fun _ _ _ _ => Infer.bases_of_answer
        order := fun _ _ _ _ => Infer.order_of_answer
        attr := fun id name origin => .of_step (Infer.computeAttr id name origin) ih
        execute := fun callee arguments => .of_step (Infer.computeExecute callee arguments) ih
        layers := fun id fromInside limit origin =>
          .of_step (Infer.computeLayers id fromInside limit origin) ih
        targets := fun name => .of_step (Infer.computeTargets name) ih }

end NameInference

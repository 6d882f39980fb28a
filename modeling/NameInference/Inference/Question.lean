import NameInference.Inference.Reachability
import NameInference.Scope.Binding
import NameInference.Value.Set

/-!
# Questions

What is computed once in a session. A question is its own key; a request carries what is needed to
compute the answer.
-/

namespace NameInference

/-- What identifies an answer. -/
inductive Question where
  | eval (node : PlaceKey) (context : ValueId)
  | binding (name : PlaceKey) (context : ValueId)
  | param (param : PlaceKey) (execution : ValueId)
  | execution (execution : ValueId)
  | iteration (value : ValueId)
  | bases (cls : ValueId)
  | order (cls : ValueId)
  | metaclasses (cls : ValueId)
  | typeVars (cls : ValueId)
  | test (node : PlaceKey) (context : ValueId)
  | starModules (module : ValueId)
  | implementation (name : Text)
  | importing (name : Text)
  | descriptor (name : Text)
  deriving DecidableEq, Hashable

/-- The type of an answer. -/
abbrev Answer : Question → Type
  | .eval .. | .binding .. | .param .. | .execution _ | .iteration _ | .metaclasses _ => ValueSet
  | .implementation _ | .importing _ => ValueSet
  | .bases _ => List ValueSet
  | .order _ | .typeVars _ | .starModules _ => List ValueId
  | .test .. => Reachability
  | .descriptor _ => Option ValueId

/-- The answer that stands in for one that is not known yet. -/
def Answer.fallback : (q : Question) → Answer q
  | .eval .. | .binding .. | .param .. | .execution _ | .iteration _ | .metaclasses _ =>
    (∅ : ValueSet)
  | .implementation _ | .importing _ => (∅ : ValueSet)
  | .bases _ => []
  | .order _ | .typeVars _ | .starModules _ => []
  | .test .. => .unsure
  | .descriptor _ => none

/-- A question with what is needed to answer it. -/
inductive Request where
  | eval (node : Place) (context : ValueId)
  | binding (binding : Binding) (context : ValueId)
  | param (param : Place) (execution : ValueId)
  | execution (execution : ValueId)
  | iteration (value : ValueId)
  | bases (cls : ValueId)
  | order (cls : ValueId)
  | metaclasses (cls : ValueId)
  | typeVars (cls : ValueId)
  | test (node : Place) (context : ValueId)
  | starModules (module : ValueId)
  | implementation (names : List Text)
  | importing (names : List Text)
  | descriptor (names : List Text) (implementation : ValueSet) (parent : Option ValueId)

namespace Request

/-- The question that a request asks. -/
abbrev key : Request → Question
  | eval node context => .eval node.key context
  | binding b context => .binding b.name.key context
  | param p context => .param p.key context
  | execution id => .execution id
  | iteration id => .iteration id
  | bases id => .bases id
  | order id => .order id
  | metaclasses id => .metaclasses id
  | typeVars id => .typeVars id
  | test node context => .test node.key context
  | starModules id => .starModules id
  | implementation names => .implementation (Text.dotted names)
  | importing names => .importing (Text.dotted names)
  | descriptor names _ _ => .descriptor (Text.dotted names)

end Request

end NameInference

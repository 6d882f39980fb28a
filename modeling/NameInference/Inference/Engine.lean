import NameInference.Inference.Evaluate

/-!
# The engine

The steps of inference tied together. Questions are answered through the memo of the session; every
way back into the recursion counts against a bound on the depth.
-/

namespace NameInference

namespace Infer

/-- Computes the answer of a question that is answered at once. -/
def compute : (request : Request) → Infer (Answer request.key)
  | .eval node context => computeEval context node
  | .binding b context => computeBinding b context
  | .param p execution => computeParam p execution
  | .execution execution => computeExecution execution
  | .iteration value => computeIteration value
  | .bases cls => computeBases cls
  | .metaclasses cls => computeMetaclasses cls
  | .typeVars cls => computeTypeVars cls
  | .test node context => computeTest context node
  | .implementation names => computeImplementation names
  | .importing names => computeImport names
  | .descriptor names implementation parent => computeDescriptor names implementation parent
  | .order _ | .starModules _ => (return [] : Infer (List ValueId))

/-- The answer of a question. Orders of classes and star imports are collected piece by piece. -/
def answer (request : Request) : Infer (Answer request.key) := fun calls =>
  match request with
  | .order cls =>
    Session.memoSlot.generate Failure.isRecoverable (.order cls) [] fun grow =>
      computeOrder cls (fun f _ => grow f) calls
  | .starModules module =>
    Session.memoSlot.generate Failure.isRecoverable (.starModules module) [] fun grow =>
      computeStarModules module (fun f _ => grow f) calls
  | request =>
    Session.memoSlot.answer Failure.isRecoverable request.key (Answer.fallback request.key)
      (compute request calls)

end Infer

/-- The recursion of inference, up to a depth. -/
def engine : (depth : Nat) → Calls
  | 0 =>
    { ask := fun _ => throw .nestedTooDeeply
      attr := fun _ _ _ => throw .nestedTooDeeply
      execute := fun _ _ => throw .nestedTooDeeply
      layers := fun _ _ _ _ => throw .nestedTooDeeply
      targets := fun _ => throw .nestedTooDeeply }
  | depth + 1 =>
    { ask := fun request => Infer.answer request (engine depth)
      attr := fun id name origin => Infer.computeAttr id name origin (engine depth)
      execute := fun callee arguments => Infer.computeExecute callee arguments (engine depth)
      layers := fun id fromInside limit origin =>
        Infer.computeLayers id fromInside limit origin (engine depth)
      targets := fun name => Infer.computeTargets name (engine depth) }

/-- How deeply steps of inference may nest. -/
def engineDepth : Nat := 1000000

/-- Runs a step of inference. -/
def Infer.start {α : Type} (step : Infer α) : SessionM α := step (engine engineDepth)

end NameInference

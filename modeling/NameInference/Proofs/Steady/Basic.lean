import NameInference.Proofs.Inference.Ensures
import NameInference.Proofs.Session.Evolution

/-!
# Steady steps

A step of inference is steady if every session evolves by it, whatever its outcome, provided that
the steps it leads back to are steady. Steadiness goes through every way in which steps are put
together, so it is a class: that a step is steady is found along its definition.
-/

namespace NameInference

variable {calls : Calls}

/-- The ways back into the recursion are steady, and what they tell of bases and orders is what the
session holds then, if it is anything. -/
structure Calls.Steady (calls : Calls) : Prop where
  ask : ∀ request, SessionM.Steady (calls.ask request)
  bases : ∀ cls s sets t, calls.ask (.bases cls) s = (.ok sets, t) →
    sets = [] ∨ t.memo.find? (.bases cls) = some (.done sets)
  order : ∀ cls s list t, calls.ask (.order cls) s = (.ok list, t) → list = [] ∨
    ∃ entry, t.memo.find? (.order cls) = some entry ∧
    (entry = .done list ∨ entry = .running (some list))
  attr : ∀ id name origin, SessionM.Steady (calls.attr id name origin)
  execute : ∀ callee arguments, SessionM.Steady (calls.execute callee arguments)
  layers : ∀ id fromInside limit origin, SessionM.Steady (calls.layers id fromInside limit origin)
  targets : ∀ name, SessionM.Steady (calls.targets name)

/-- Every session evolves by the step. -/
class Infer.Steady {α : Type} (step : Infer α) : Prop where
  evolves : ∀ calls, calls.Steady → SessionM.Steady (step calls)

theorem SessionM.Steady.of_step {α : Type} (step : Infer α) [h : step.Steady]
    (hcalls : calls.Steady) :
    SessionM.Steady (step calls) :=
  h.evolves calls hcalls

namespace Infer

variable {α β : Type}

instance (a : α) : Steady (pure a : Infer α) := ⟨fun _ _ s => .refl s⟩

instance (failure : Failure) : Steady (throw failure : Infer α) := ⟨fun _ _ s => .refl s⟩

instance : Steady (get : Infer Session) := ⟨fun _ _ s => .refl s⟩

theorem Steady.modify {f : Session → Session} (h : ∀ s : Session, s.Evolves (f s)) :
    Steady (modify f) :=
  ⟨fun _ _ s => h s⟩

theorem Steady.modifyGet {f : Session → α × Session} (h : ∀ s : Session, s.Evolves (f s).2) :
    Steady (modifyGet f : Infer α) :=
  ⟨fun _ _ s => h s⟩

theorem Steady.lift {step : SessionM α} (h : SessionM.Steady step) :
    Steady (liftM step : Infer α) := ⟨fun _ _ => h⟩

theorem Steady.bind {step : Infer α} {next : α → Infer β} (hstep : Steady step)
    (hnext : ∀ a, Steady (next a)) :
    Steady (step >>= next) :=
  ⟨fun calls hcalls => .bind (hstep.evolves calls hcalls) fun a => (hnext a).evolves calls hcalls⟩

instance {step : Infer α} {next : α → Infer β} [hstep : Steady step]
    [hnext : ∀ a, Steady (next a)] :
    Steady (step >>= next) :=
  .bind hstep hnext

/-- After a step that is known to be steady, only the next one is left. -/
theorem Steady.after {step : Infer α} {next : α → Infer β} [hstep : Steady step]
    (hnext : ∀ a, Steady (next a)) :
    Steady (step >>= next) :=
  .bind hstep hnext

theorem Steady.map {step : Infer α} {f : α → β} (h : Steady step) : Steady (f <$> step) :=
  inferInstanceAs (Steady (step >>= fun a => pure (f a)))

instance {step : Infer α} {f : α → β} [h : Steady step] : Steady (f <$> step) := .map h

theorem Steady.ite {c : Prop} [Decidable c] {yes no : Infer α} (hyes : Steady yes)
    (hno : Steady no) :
    Steady (if c then yes else no) := by
  split <;> assumption

instance {c : Prop} [Decidable c] {yes no : Infer α} [hyes : Steady yes] [hno : Steady no] :
    Steady (if c then yes else no) :=
  .ite hyes hno

instance {c : Prop} [Decidable c] {yes : c → Infer α} {no : ¬ c → Infer α}
    [hyes : ∀ h, Steady (yes h)] [hno : ∀ h, Steady (no h)] :
    Steady (if h : c then yes h else no h) := by
  split
  · exact hyes _
  · exact hno _

/-- A handler goes on where the step failed. -/
theorem tryCatch_apply {step : Infer α} {handler : Failure → Infer α} {s : Session} :
    (tryCatch step handler) calls s =
      match step calls s with
      | (.ok a, t) => (.ok a, t)
      | (.error e, t) => handler e calls t := by
  change ExceptT.tryCatch (step calls) (fun e => handler e calls) s = _
  simp only [ExceptT.tryCatch, ExceptT.mk, bind, StateT.bind]
  rcases step calls s with ⟨_ | _, _⟩ <;> rfl

instance {step : Infer α} {handler : Failure → Infer α} [hstep : Steady step]
    [hhandler : ∀ e, Steady (handler e)] :
    Steady (tryCatch step handler) where
  evolves calls hcalls s := by
    have hfirst := hstep.evolves calls hcalls s
    rw [tryCatch_apply]
    cases hrun : step calls s with
    | mk outcome t =>
      rw [hrun] at hfirst
      cases outcome with
      | ok => exact hfirst
      | error e => exact hfirst.trans ((hhandler e).evolves calls hcalls t)

/-- A last step is taken whatever the outcome is; the outcome stays, unless the last step fails. -/
theorem tryFinally_apply {step : Infer α} {last : Infer β} {s : Session} :
    (tryFinally step last) calls s =
      match step calls s with
      | (outcome, t) =>
        match last calls t with
        | (.ok _, u) => (outcome, u)
        | (.error e, u) => (.error e, u) := by
  unfold tryFinally
  rw [map_eq_pure_bind, bind_apply]
  simp only [tryFinally', ExceptT.mk, bind, StateT.bind]
  rcases step calls s with ⟨_ | _, t⟩ <;> simp only [pure] <;>
    rcases last calls t with ⟨_ | _, _⟩ <;> rfl

theorem Steady.tryFinally {step : Infer α} {last : Infer β} (hstep : Steady step)
    (hlast : Steady last) :
    Steady (tryFinally step last) where
  evolves calls hcalls s := by
    have hboth := (hstep.evolves calls hcalls s).trans (hlast.evolves calls hcalls _)
    rw [tryFinally_apply]
    cases hrun : step calls s with
    | mk outcome t =>
      rw [hrun] at hboth
      simp only
      cases hend : last calls t with
      | mk ending u =>
        rw [hend] at hboth
        cases ending <;> exact hboth

instance {step : Infer α} {last : Infer β} [hstep : Steady step] [hlast : Steady last] :
    Steady (tryFinally step last) :=
  .tryFinally hstep hlast

theorem Steady.foldlM {items : List α} {f : β → α → Infer β} {init : β}
    (h : ∀ b a, Steady (f b a)) :
    Steady (items.foldlM f init) := by
  induction items generalizing init with
  | nil => exact inferInstanceAs (Steady (pure init))
  | cons item items ih => exact .bind (h init item) fun b => ih

instance {items : List α} {f : β → α → Infer β} {init : β} [h : ∀ b a, Steady (f b a)] :
    Steady (items.foldlM f init) :=
  .foldlM h

instance {items : List α} {f : α → Infer β} [h : ∀ a, Steady (f a)] : Steady (items.mapM f) := by
  induction items with
  | nil => exact inferInstanceAs (Steady (pure []))
  | cons item items ih =>
    rw [List.mapM_cons]
    infer_instance

theorem Steady.forIn {items : List α} {f : α → β → Infer (ForInStep β)} {init : β}
    (h : ∀ a b, Steady (f a b)) :
    Steady (forIn items init f) := by
  induction items generalizing init with
  | nil => exact inferInstanceAs (Steady (pure init))
  | cons item items ih =>
    rw [List.forIn_cons]
    refine .after fun step => ?_
    cases step with
    | done b => infer_instance
    | yield b => exact ih

instance {items : List α} {f : α → β → Infer (ForInStep β)} {init : β} [h : ∀ a b, Steady (f a b)] :
    Steady (forIn items init f) :=
  .forIn h

section Calls

variable (context value callee execution : ValueId) (node : Place) (origin : Option Place)

theorem Steady.ask (request : Request) : Steady (ask request) :=
  ⟨fun _ hcalls => hcalls.ask request⟩

instance : Steady (eval context node) := .ask _

instance (b : Binding) : Steady (inferBinding context b) := .ask _

instance : Steady (inferParam execution node) := .ask _

instance : Steady (run execution) := .ask _

instance : Steady (iterateOne value) := .ask _

instance : Steady (check context node) := .ask _

instance (cls : ValueId) : Steady (order cls) := by
  have : Steady (α := List ValueId) (ask (.order cls)) := .ask _
  unfold order
  infer_instance

instance (names : List Text) : Steady (importModule names) := by
  have : Steady (α := ValueSet) (ask (.importing names)) := .ask _
  unfold importModule
  infer_instance

instance (names : List Text) : Steady (importImplementation names) := by
  have : Steady (α := ValueSet) (ask (.implementation names)) := .ask _
  unfold importImplementation
  infer_instance

instance (name : Text) : Steady (attrOf value name origin) :=
  ⟨fun _ hcalls => hcalls.attr value name origin⟩

instance (arguments : ArgumentsId) : Steady (execute callee arguments) :=
  ⟨fun _ hcalls => hcalls.execute callee arguments⟩

instance : Steady (layersOf value origin) := ⟨fun _ hcalls => hcalls.layers value false none origin⟩

instance (limit : Option Position) : Steady (layersInside value limit origin) :=
  ⟨fun _ hcalls => hcalls.layers value true limit origin⟩

instance (name : FoundName) : Steady (targetsOf name) := ⟨fun _ hcalls => hcalls.targets name⟩

end Calls

instance (f : Values → α) : Steady (query f) := ⟨fun _ _ s => .refl s⟩

instance (f : Session → α) : Steady (inspect f) := ⟨fun _ _ s => .refl s⟩

instance (message : Session → Text) : Steady (debug message) :=
  .modify fun s => .of_same (Session.remembered_debug message s)

instance (message : Session → Text) : Steady (warn message) :=
  .modify fun s => .of_same (Session.remembered_warn message s)

instance {step : Infer α} [Steady step] : Steady (indented step) := by
  have hin : Steady (modify fun s => { s with trace := s.trace.indent } : Infer Unit) :=
    .modify fun _ => .of_same rfl
  have hout : Steady (modify fun s => { s with trace := s.trace.outdent } : Infer Unit) :=
    .modify fun _ => .of_same rfl
  unfold indented
  infer_instance

theorem Steady.indented {step : Infer α} (h : Steady step) : Steady (Infer.indented step) :=
  inferInstance

theorem Steady.collect {items : List α} {f : α → Infer ValueSet} (h : ∀ a, Steady (f a)) :
    Steady (collect items f) :=
  .foldlM fun _ _ => inferInstance

instance {items : List α} {f : α → Infer ValueSet} [h : ∀ a, Steady (f a)] :
    Steady (collect items f) := .collect h

instance {items : List α} {f : α → Infer ValueId} [∀ a, Steady (f a)] :
    Steady (gather items f) := by
  unfold gather
  infer_instance

section Sets

variable (values : ValueSet)

instance : Steady (iterate values) := by unfold iterate; infer_instance

instance (name : Text) (origin : Option Place) : Steady (attrOfAll values name origin) := by
  unfold attrOfAll
  infer_instance

instance (arguments : ArgumentsId) :
    Steady (executeAll values arguments) := by unfold executeAll; infer_instance

end Sets

end Infer

end NameInference

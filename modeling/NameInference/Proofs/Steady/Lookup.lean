import NameInference.Proofs.Steady.Values

/-!
# Looking names up is steady

Names are looked up in layers, and the layers of a value are found through its class, its module and
the contexts around it. Whether a binding is reached depends on tests, which are evaluated.
-/

namespace NameInference

namespace Place

variable (context : ValueId) (p flow : Place)

instance : Infer.Steady (verdictOf (Infer.check context) flow p) := by
  unfold verdictOf
  split
  · split <;> infer_instance
  all_goals infer_instance

instance (scope : Option PlaceKey) :
    Infer.Steady (verdictUpTo (Infer.check context) scope p flow) := by
  induction hdepth : flow.depth using Nat.strongRecOn generalizing flow with
  | ind depth ih =>
    unfold verdictUpTo
    refine .after fun here => .ite inferInstance (.ite inferInstance ?_)
    split
    · infer_instance
    · next outer houter =>
      have hup := ih outer.depth (hdepth ▸ depth_governorAlong houter) outer rfl
      infer_instance

instance (scope origin : Option Place) :
    Infer.Steady (p.reachability (Infer.check context) scope origin) := by
  unfold reachability
  split
  · infer_instance
  · split <;> infer_instance

end Place

namespace Infer

variable (id cls context owner : ValueId) (scope node : Place) (origin : Option Place)
  (limit : Option Position) (name : Text) (layer : Layer)

instance (b : Binding) : Steady (bindingVerdict context scope origin b) := by
  unfold bindingVerdict
  infer_instance

instance (verdict : Binding → Infer Reachability) [∀ b, Steady (verdict b)]
    (bindings : List Binding) :
    Steady (Bindings.takeReached verdict bindings) := by
  induction bindings with
  | nil => exact inferInstanceAs (Steady (pure []))
  | cons b rest ih =>
    unfold Bindings.takeReached
    refine .after fun _ => ?_
    split <;> infer_instance

instance (verdict : Binding → Infer Reachability) [∀ b, Steady (verdict b)]
    (visible accessible : Binding → Bool) (bindings : List Binding) :
    Steady (Bindings.select verdict visible accessible limit bindings) := by
  unfold Bindings.select
  infer_instance

instance (view : ScopeView) : Steady (scopeNames context scope limit origin view name) := by
  unfold scopeNames
  infer_instance

instance (receiver defining : ValueId) : Steady (selfNames receiver defining origin name) := by
  unfold selfNames
  refine .after fun _ => ?_
  split <;> infer_instance

instance : Steady (namesIn layer name) := by
  unfold namesIn
  split <;> infer_instance

instance (layers : List Layer) : Steady (namesInFirst layers name) := by
  induction layers with
  | nil => exact inferInstanceAs (Steady (pure []))
  | cons layer rest ih =>
    unfold namesInFirst
    infer_instance

instance (lookup : ValueId) (receiver : Option ValueId) :
    Steady (memberLayers lookup receiver origin) := by
  unfold memberLayers
  infer_instance

instance (names : List Text) :
    Steady (submoduleTable id names) := by unfold submoduleTable; infer_instance

instance (m : ModuleValue) :
    Steady (moduleAttributes id m) := by unfold moduleAttributes; infer_instance

instance (m : ModuleValue) (fromInside : Bool) :
    Steady (moduleLayers id m fromInside limit origin) := by
  unfold moduleLayers
  infer_instance

instance : Steady (classLayers id origin) := by unfold classLayers; infer_instance

instance : Steady (instanceLayers id cls origin) := by unfold instanceLayers; infer_instance

instance (fromInside : Bool) : Steady (computeLayers id fromInside limit origin) := by
  have hwrapped (wrapped : ValueId) :
    Steady (fun calls => calls.layers wrapped fromInside limit origin) :=
    ⟨fun _ hcalls => hcalls.layers wrapped fromInside limit origin⟩
  unfold computeLayers
  refine .after fun _ => ?_
  split <;> infer_instance

instance (contexts : List ValueId) : Steady (chainLayers contexts limit origin) := by
  induction contexts generalizing limit with
  | nil => exact inferInstanceAs (Steady (pure []))
  | cons context rest ih =>
    unfold chainLayers
    infer_instance

instance (root : ValueId) :
    Steady (overlayLayers root origin) := by unfold overlayLayers; infer_instance

instance : Steady (globalLayers context limit origin) := by unfold globalLayers; infer_instance

instance (place : Place) (scopes : List Place) :
    Steady (comprehensionNames owner name place scopes) := by
  induction scopes generalizing owner with
  | nil => exact inferInstanceAs (Steady (pure []))
  | cons scope rest ih =>
    unfold comprehensionNames
    refine .ite inferInstance (.after fun _ => .ite inferInstance (.after fun _ =>
      .ite (.after fun _ => ?_) inferInstance))
    split <;> infer_instance

instance (position : Option Position) : Steady (findNames context name position origin) := by
  unfold findNames
  refine .after fun _ => ?_
  extract_lets _ join
  have hjoin (inner : List FoundName) : Steady (join inner) := inferInstanceAs (Steady (join inner))
  split <;> infer_instance

instance : Steady (namesRead context node name) := by unfold namesRead; infer_instance

instance (names : List FoundName) : Steady (firstTypingName names) := by
  induction names with
  | nil => exact inferInstanceAs (Steady (pure none))
  | cons name rest ih =>
    unfold firstTypingName
    refine .after fun _ => .after fun _ => ?_
    split <;> infer_instance

instance : Steady (specialForm? context node) := by
  unfold specialForm?
  split <;> infer_instance

instance (form : Text) (index : Place) : Steady (specialSubscript? context form index) := by
  unfold specialSubscript?
  refine .ite inferInstance (.ite inferInstance (.ite ?_ (.ite inferInstance ?_)))
  · split <;> infer_instance
  · split <;> infer_instance

end Infer

end NameInference

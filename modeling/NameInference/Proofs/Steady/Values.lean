import NameInference.Proofs.Steady.Basic

/-!
# Making values is steady

Values are made by interning them. The classes of the builtin module, the facts about classes and
the modules that names lead to are found by further steps, and modules are parsed and interned when
they are first looked for.
-/

namespace NameInference.Infer

variable (id cls parent context callee module value : ValueId) (node : Place) (name : Text)
  (names : List Text)

instance (value : Value Place) : Steady (intern value) := .modifyGet (Session.evolves_intern value)

instance (list : ArgumentList Place) : Steady (internArguments list) :=
  .modifyGet (Session.evolves_internArguments list)

instance (id : ArgumentsId) : Steady (argumentList id) := by unfold argumentList; infer_instance

instance : Steady (makeClass node parent) := by unfold makeClass; infer_instance

instance : Steady (makeFunction node context) := by unfold makeFunction; infer_instance

instance (arguments : ArgumentsId) :
    Steady (makeExecution callee arguments) := by unfold makeExecution; infer_instance

instance (arguments : ArgumentsId) :
    Steady (makeInstance cls arguments) := by unfold makeInstance; infer_instance

instance : Steady (makeAnonymousExecution callee) := by
  unfold makeAnonymousExecution
  refine .after fun _ => ?_
  split <;> infer_instance

instance : Steady (makeDisplay cls node context) := by unfold makeDisplay; infer_instance

instance (type : String) (text : Text) :
    Steady (makeLiteral type text) := by unfold makeLiteral; infer_instance

instance (parameters : List ValueSet) :
    Steady (makeGeneric cls parameters) := by unfold makeGeneric; infer_instance

instance (kind : WrapperKind) (extra : Option ValueId) (node : Option Place) :
    Steady (makeWrapper kind value extra name node) := by
  unfold makeWrapper
  infer_instance

instance : Steady noneValue := by unfold noneValue; infer_instance

instance : Steady (literal? node) := by
  unfold literal?
  split <;> infer_instance

instance : Steady builtinsModule := by
  unfold builtinsModule
  refine .after fun _ => ?_
  split
  · infer_instance
  · refine .after fun _ => .after fun _ => ?_
    split
    · exact .bind (.modify fun _ => .of_same rfl) inferInstance
    · infer_instance

instance : Steady (builtinClassNamed name) := by
  unfold builtinClassNamed
  refine .after fun s => ?_
  split
  · infer_instance
  · have hpending : Steady (modify fun s => { s with pendingClasses := name :: s.pendingClasses } :
      Infer Unit) :=
      .modify fun _ => .of_same rfl
    have hdone : Steady (modify fun s => { s with pendingClasses := s.pendingClasses.erase name } :
      Infer Unit) :=
      .modify fun _ => .of_same rfl
    have hfound (found : ValueSet) : Steady
        (modify fun s => { s with builtinClasses := s.builtinClasses.insert name found } :
          Infer Unit) :=
      .modify fun _ => .of_same rfl
    infer_instance

instance (name : String) : Steady (builtinClass name) := by unfold builtinClass; infer_instance

instance (classes : ValueSet) :
    Steady (instancesOf classes) := by unfold instancesOf; infer_instance

instance (name : String) :
    Steady (builtinInstance name) := by unfold builtinInstance; infer_instance

instance (name : String) (values : List ValueSet) : Steady (packedValue name values) := by
  unfold packedValue
  infer_instance

instance (callees : ValueSet) (values : List ValueSet) :
    Steady (executeWithValues callees values) := by
  unfold executeWithValues
  infer_instance

instance {α : Type} (other : α) (question : ValueId → Infer α) [∀ id, Steady (question id)] :
    Steady (ofPlainClass cls other question) := by
  unfold ofPlainClass
  infer_instance

instance : Steady (bases cls) := by
  have (plain : ValueId) : Steady (α := List ValueSet) (ask (.bases plain)) := .ask _
  unfold bases
  infer_instance

instance : Steady (metaclasses cls) := by
  have (plain : ValueId) : Steady (α := ValueSet) (ask (.metaclasses plain)) := .ask _
  unfold metaclasses
  infer_instance

instance : Steady (typeVars cls) := by
  have (plain : ValueId) : Steady (α := List ValueId) (ask (.typeVars plain)) := .ask _
  unfold typeVars
  infer_instance

instance : Steady (computeBases cls) := by
  unfold computeBases
  refine .after fun _ => ?_
  split <;> infer_instance

instance (sets : List ValueSet) : Steady (classesIn sets) := by unfold classesIn; infer_instance

instance {α : Type} (items : List α) (f : α → Infer ValueSet) [∀ a, Steady (f a)] :
    Steady (firstNonempty items f) := by
  induction items with
  | nil => exact inferInstanceAs (Steady (pure ∅))
  | cons item rest ih =>
    unfold firstNonempty
    infer_instance

instance : Steady (computeMetaclasses cls) := by
  unfold computeMetaclasses
  refine .after fun _ => ?_
  split <;> infer_instance

instance : Steady (computeTypeVars cls) := by
  unfold computeTypeVars
  refine .after fun _ => ?_
  split <;> infer_instance

instance (parameters : List ValueSet) : Steady (defineGenerics cls parameters) := by
  unfold defineGenerics
  infer_instance

instance : Steady (genericBindings cls) := by
  unfold genericBindings
  refine .after fun _ => ?_
  split <;> infer_instance

instance : Steady (classOf id) := by
  unfold classOf
  refine .after fun _ => ?_
  split
  case h_6 => split <;> infer_instance
  all_goals infer_instance

theorem steady_parseSource (code path : Text) :
    SessionM.Steady (Session.parseSource code path) := by
  unfold Session.parseSource
  split
  · exact fun s => .refl s
  · exact fun s => Session.evolves_storeTree _ path s

theorem steady_parseFile (path : Text) : SessionM.Steady (Session.parseFile path) := by
  unfold Session.parseFile
  refine .bind (fun s => .refl s) fun s => ?_
  split
  · exact fun s => .refl s
  · split
    · exact fun s => .refl s
    · exact steady_parseSource _ path

instance (path : Text) : Steady (liftM (Session.parseFile path) : Infer Nat) :=
  .lift (steady_parseFile path)

instance (code path : Text) : Steady (liftM (Session.parseSource code path) : Infer Nat) :=
  .lift (steady_parseSource code path)

instance (m : ModuleValue) : Steady (modifyGet (Session.internModule m) : Infer ValueId) :=
  .modifyGet (Session.evolves_internModule m)

instance (located : LocatedModule) : Steady (loadImplementation located names) := by
  unfold loadImplementation
  infer_instance

instance : Steady (computeImplementation names) := by
  unfold computeImplementation
  dsimp only
  refine .after fun s => ?_
  split
  · infer_instance
  · split
    · infer_instance
    · split
      · infer_instance
      · split <;> infer_instance
    · infer_instance

instance (path : Text) (implementation : ValueSet) :
    Steady (descriptorFromFile path implementation names) := by
  unfold descriptorFromFile
  refine .after fun _ => ?_
  split <;> infer_instance

instance (paths : List Text) (implementation : ValueSet) :
    Steady (firstDescriptor paths implementation names) := by
  induction paths with
  | nil => exact inferInstanceAs (Steady (pure none))
  | cons path rest ih =>
    unfold firstDescriptor
    refine .after fun _ => ?_
    split <;> infer_instance

instance (implementation : ValueSet) : Steady (bundledDescriptor implementation names) := by
  unfold bundledDescriptor
  split
  · split <;> infer_instance
  · infer_instance

instance (implementation : ValueSet) (parent : Option ValueId) :
    Steady (computeDescriptor names implementation parent) := by
  have hcount (counter : Text) :
    Steady (modify fun s => { s with tally := s.tally.count counter } : Infer Unit) :=
    .modify fun _ => .of_same rfl
  unfold computeDescriptor
  refine .after fun _ => .after fun _ => ?_
  extract_lets join
  have hjoin (found : Option ValueId) : Steady (join found) := inferInstanceAs (Steady (join found))
  split <;> infer_instance

instance : Steady (computeImport names) := by
  have (implementation : ValueSet) (parent : Option ValueId) :
      Steady (α := Option ValueId) (ask (.descriptor names implementation parent)) := .ask _
  unfold computeImport
  refine .after fun implementation => ?_
  extract_lets _ join
  have hjoin (parent : Option ValueId) : Steady (join parent) := by
    refine .after fun _ => ?_
    split <;> infer_instance
  infer_instance

instance (stmt : Place) : Steady (importFromModule module stmt) := by
  unfold importFromModule
  dsimp only
  split
  · infer_instance
  · refine .after fun _ => ?_
    split <;> infer_instance

instance (item : Place) : Steady (inferImport context item) := by
  unfold inferImport
  split
  · split
    · infer_instance
    · refine .after fun _ => ?_
      extract_lets join
      have hjoin (base : Option (List Text)) : Steady (join base) := by
        unfold join
        split <;> infer_instance
      infer_instance
    · infer_instance
  · infer_instance

instance : Steady (starModules module) := by
  have : Steady (α := List ValueId) (ask (.starModules module)) := .ask _
  unfold starModules
  infer_instance

instance (grow : (List ValueId → List ValueId) → Infer Unit) [∀ f, Steady (grow f)] :
    Steady (computeStarModules module grow) := by
  unfold computeStarModules
  exact .after fun _ => .bind (.forIn fun _ _ => .after fun _ => .bind (.forIn fun _ _ =>
    inferInstance) inferInstance) inferInstance

instance : Steady (moduleToDescriptor module) := by
  unfold moduleToDescriptor
  refine .after fun _ => ?_
  split <;> infer_instance

instance : Steady (moduleToImplementation module) := by
  unfold moduleToImplementation
  refine .after fun _ => ?_
  split <;> infer_instance

instance (side : Side) : Steady (convertModule side module) := by
  unfold convertModule
  split <;> infer_instance

instance (values : ValueSet) : Steady (followNames values names) := by
  induction names generalizing values with
  | nil => exact inferInstanceAs (Steady (pure values))
  | cons name rest ih =>
    unfold followNames
    infer_instance

instance (side : Side) : Steady (convertNamed side value) := by
  unfold convertNamed
  dsimp only
  refine .after fun _ => ?_
  split
  · infer_instance
  · split <;> infer_instance

instance (side : Side) : Steady (convert side value) := by
  induction value using Nat.strongRecOn with
  | ind value ih =>
    unfold convert
    refine .after fun _ => ?_
    split
    · infer_instance
    · infer_instance
    · infer_instance
    · infer_instance
    · have hcls (cls : ValueId) (h : cls < value) : Steady (convert side cls) := ih cls h
      infer_instance
    · refine .after fun _ => ?_
      have hcls (cls : ValueId) (h : cls < value) : Steady (convert side cls) := ih cls h
      infer_instance
    · infer_instance

end NameInference.Infer

import NameInference.Proofs.Descriptor.Definition
import NameInference.Proofs.Except
import NameInference.Proofs.Inference.Answers
import NameInference.Proofs.Value.SetAlgebra

/-!
# From a descriptor to the implementation and back

A descriptor and the one module that it overlays define a class or function of the same name. In
whatever session, what the descriptor defines is implemented by what the name is inferred to in the
other module, and what that module defines is described by what the name is inferred to in the
descriptor, unless the descriptor hides the name.
-/

namespace NameInference

open Values

variable {side : Side} {x : Text} {p q : Place}

theorem Place.valueIn_cases (p : Place) (module : ValueId) :
    p.valueIn module = .cls p module ∨ p.valueIn module = .function p module none := by
  unfold valueIn
  split
  · exact .inl rfl
  · exact .inr rfl

namespace Values

variable {values : Values} {module id : ValueId} {m : ModuleValue}

theorem module?_of_get? (h : values.get? module = some (.module m)) :
    values.module? module = some m := by
  rw [module?, h]

theorem root_of_module (h : values.get? id = some (.module m)) : values.root id = id := by
  rw [root, parent?, h]

section

variable (hmodule : values.get? module = some (.module m))
  (hget : values.get? id = some (p.valueIn module)) (hlt : module < id)

include hmodule hget hlt

theorem root_of_valueIn : values.root id = module := by
  have hparent : values.parent? id = some module := by
    rcases p.valueIn_cases module with hcls | hfunction
    · rw [parent?, hget, hcls]
    · rw [parent?, hget, hfunction]
  rw [root, hparent]
  simp only [hlt, dite_true]
  exact root_of_module hmodule

/-- What a module defines is named by its definition. -/
theorem qualifiedNames?_of_valueIn (hx : p.definedName? = some x) :
    values.qualifiedNames? id = some [x] := by
  have hname : values.name id = x := by
    rcases hcases : p.isClass with _ | _
    · have hlambda : p.isLambda = false := by
        obtain ⟨tree, ⟨span, usage, form⟩, above⟩ := p
        cases form <;> first | rfl | cases hx
      rw [Place.valueIn, hcases, if_neg (by simp)] at hget
      have hnode : values.functionNode? id = some p := by
        rw [functionNode?, callableNode?, hget]
        simp [Option.filter, hlambda]
      rw [name, hget]
      simp [hnode, hx]
    · rw [Place.valueIn, hcases, if_pos rfl] at hget
      rw [name, hget]
      simp [hx]
  have hexecution : values.execution? module = none := by
    rw [execution?, hmodule]
  have houter : values.qualifiedNames? module = some [] := by
    rw [qualifiedNames?, hmodule]
  have hinside : qualifiedNames?.inside values id module (some []) = some [x] := by
    rw [qualifiedNames?.inside, hexecution, hname]
    rfl
  rcases p.valueIn_cases module with hcls | hfunction
  · rw [qualifiedNames?, hget, hcls]
    simp only [hlt, dite_true, houter, hinside]
  · rw [qualifiedNames?, hget, hfunction]
    simp only [Option.getD_none, hlt, dite_true, houter, hinside]

end

end Values

/-- A module that is loaded from a source defines a class or function once. -/
structure Session.Defines (s : Session) (module : ValueId) (m : ModuleValue) (n : Nat)
    (source : Module) (x : Text) (p : Place) : Prop extends source.Defines n x p where
  module_eq : s.values.get? module = some (.module m)
  tree_eq : m.tree = some n
  stored : s.tree? n = some (.ofModule n source)

/-- A descriptor and the one module that it overlays. -/
structure ModuleValue.Overlays (d m : ModuleValue) (module : ValueId) : Prop where
  isDescriptor : d.isDescriptor = true
  isImplementation : m.isDescriptor = false
  overlaid_eq : d.overlaid = .single module
  names_ne : m.names ≠ []

theorem Session.Defines.evolves {s t : Session} {module : ValueId} {m : ModuleValue} {n : Nat}
    {source : Module} (h : s.Defines module m n source x p) (hevolves : s.Evolves t) :
    t.Defines module m n source x p :=
  ⟨h.toDefines, hevolves.values.items _ _ h.module_eq, h.tree_eq, hevolves.trees _ _ h.stored⟩

namespace Infer

variable {calls : Calls} {s t : Session} {module other id : ValueId} {m d : ModuleValue}
  {n n' : Nat} {source described : Module} {layers : List Layer} {depth : Nat}

/-- The name by which a module knows its definition. -/
abbrev ownName (module : ValueId) (n : Nat) (source : Module) (p : Place) : FoundName :=
  .tree (p.bindingIn (.root n source)) module

/-- The first layer of a module is its own scope. From outside, a descriptor hides private names
there. -/
theorem exists_layers_eq (hx : s.Defines module m n source x p)
    (hrun : layersOf module none (engine depth) s = (.ok layers, t)) :
    ∃ rest, layers = .scope module (some (.root n source)) none none
      (if m.isDescriptor then .descriptor true else .plain) :: rest := by
  cases depth with
  | zero => cases hrun
  | succ depth =>
    have hscope : s.scopeNode? module = some (.root n source) := by
      simp [Session.scopeNode?, hx.module_eq, hx.tree_eq, hx.stored, SourceTree.ofModule]
    change computeLayers module false none none (engine depth) s = _ at hrun
    rw [computeLayers, bind_of_ok (query_run _), hx.module_eq] at hrun
    change moduleLayers module m false none none (engine depth) s = _ at hrun
    rw [moduleLayers, bind_of_ok (inspect_run _), hscope] at hrun
    obtain ⟨submodules, u, -, hrun⟩ := bind_eq_ok_iff.mp hrun
    obtain ⟨attributes, v, -, hrun⟩ := bind_eq_ok_iff.mp hrun
    obtain ⟨modules, w, -, hrun⟩ := bind_eq_ok_iff.mp hrun
    obtain ⟨stars, z, -, hrun⟩ := bind_eq_ok_iff.mp hrun
    cases hrun
    refine ⟨_, congrArg (· :: _) ?_⟩
    cases m.isDescriptor <;> rfl

/-- The names that a module shows from outside: the definition, unless it is hidden, and else what
comes behind it. -/
theorem namesInFirst_of_layers (hx : s.Defines module m n source x p)
    (hrun : layersOf module none (engine depth) s = (.ok layers, t)) :
    namesInFirst layers x (engine depth) t =
      if m.isDescriptor && isPrivate x then namesInFirst layers.tail x (engine depth) t
      else (.ok [ownName module n source p], t) := by
  obtain ⟨rest, rfl⟩ := exists_layers_eq hx hrun
  have ht := hx.evolves (evolves_of_run (steady_engine depth) hrun)
  have hown := scopeNames_eq ht.toDefines ht.stored module m.isDescriptor (engine depth)
  have hnames : namesIn (.scope module (some (.root n source)) none none
      (if m.isDescriptor then .descriptor true else .plain)) x (engine depth) t = _ := hown
  rw [namesInFirst, bind_of_ok hnames]
  split <;> rfl

/-- What a module shows under the name of its definition is what this name is inferred to. -/
theorem attrOf_eq (hx : s.Defines module m n source x p)
    (hshown : (m.isDescriptor && isPrivate x) = false) (depth : Nat) :
    attrOf module x none (engine (depth + 1)) s =
      (do let _ ← layersOf module; inferBinding module (p.bindingIn (.root n source)))
        (engine depth) s := by
  change computeAttr module x none (engine depth) s = _
  rw [computeAttr, bind_apply, bind_apply]
  cases hrun : layersOf module none (engine depth) s with
  | mk outcome t =>
    cases outcome with
    | error e => rfl
    | ok layers =>
      have hnames := namesInFirst_of_layers hx hrun
      rw [hshown, if_neg (by simp)] at hnames
      dsimp only
      rw [bind_of_ok hnames, if_pos (by rfl), inferNames, collect_singleton]
      rfl

/-- Behind a private name of a descriptor, only what comes behind its own scope is found. -/
theorem attrOf_of_isPrivate (hx : s.Defines module m n source x p)
    (hdescriptor : m.isDescriptor = true) (hprivate : isPrivate x = true) (depth : Nat) :
    attrOf module x none (engine (depth + 1)) s =
      (do let layers ← layersOf module; inferNames (← namesInFirst layers.tail x))
        (engine depth) s := by
  change computeAttr module x none (engine depth) s = _
  rw [computeAttr, bind_apply, bind_apply]
  cases hrun : layersOf module none (engine depth) s with
  | mk outcome t =>
    cases outcome with
    | error e => rfl
    | ok layers =>
      have hnames := namesInFirst_of_layers hx hrun
      rw [hdescriptor, hprivate, Bool.and_true, if_pos rfl] at hnames
      have ht := hx.evolves (evolves_of_run (steady_engine depth) hrun)
      dsimp only
      rw [bind_apply, bind_apply, hnames]
      cases hfound : namesInFirst layers.tail x (engine depth) t with
      | mk outcome u =>
        cases outcome with
        | error e => rfl
        | ok names =>
          have hu := ht.evolves (evolves_of_run (steady_engine depth) hfound)
          cases names with
          | cons name names => rfl
          | nil =>
            dsimp only
            rw [if_neg (by simp), bind_of_ok (query_run _), hu.module_eq]
            rfl

/-- A path of one name is an attribute. -/
theorem followNames_single (id : ValueId) (x : Text) :
    followNames (.single id) [x] = attrOf id x := by
  rw [followNames, if_neg (by simp [ValueSet.isEmpty, ValueSet.single])]
  simp only [followNames, bind_pure]
  exact collect_singleton id _

/-- What a module defines is converted along its name. -/
theorem convert_of_valueIn (hx : s.Defines module m n source x p)
    (hside : (side == .descriptor) = !m.isDescriptor)
    (hget : s.values.get? id = some (p.valueIn module)) (hlt : module < id)
    (hmodule : convertModule side module calls s = (.ok (.single other), t)) :
    convert side id calls s = attrOf other x none calls t := by
  have hroot : s.values.root id = module := root_of_valueIn hx.module_eq hget hlt
  have hnames : s.values.qualifiedNames? id = some [x] :=
    qualifiedNames?_of_valueIn hx.module_eq hget hlt hx.named
  have hother : ¬ ((side == .descriptor) == s.values.isStub id) = true := by
    rw [hside, Values.isStub, hroot, module?_of_get? hx.module_eq]
    cases hd : m.isDescriptor <;> simp [hd]
  have hstate : (get : Infer Session) calls s = (.ok s, s) := rfl
  have hnamed : convertNamed side id calls s = attrOf other x none calls t := by
    rw [convertNamed, bind_of_ok hstate]
    simp only [if_neg hother, hnames, hroot]
    rw [bind_of_ok hmodule, followNames_single]
  rw [convert, bind_of_ok (query_run _), hget]
  rcases p.valueIn_cases module with hcls | hfunction
  · rw [hcls]
    exact hnamed
  · rw [hfunction]
    exact hnamed

/-- A descriptor is implemented by the module that it overlays. -/
theorem convertModule_implementation (h : d.Overlays m module) (hne : module ≠ other)
    (hd : s.values.get? other = some (.module d)) (calls : Calls) :
    convertModule .implementation other calls s = (.ok (.single module), s) := by
  change moduleToImplementation other calls s = _
  rw [moduleToImplementation, bind_of_ok (query_run _), module?_of_get? hd]
  simp only [h.isDescriptor, if_true, h.overlaid_eq]
  simp [ValueSet.filter, ValueSet.single, hne]
  rfl

/-- A module is described by the descriptor that is imported under its names. -/
theorem convertModule_descriptor (h : d.Overlays m module)
    (hm : s.values.get? module = some (.module m)) (hd : s.values.get? other = some (.module d))
    (himported : s.memo.find? (.importing (Text.dotted m.names)) = some (.done (.single other)))
    (depth : Nat) :
    convertModule .descriptor module (engine (depth + 1)) s =
      (.ok (.single other), s.hitting 1) := by
  have himport : importModule m.names (engine (depth + 1)) s =
      (.ok (.single other), s.hitting 1) := by
    rw [importModule, if_neg (by simpa using h.names_ne)]
    exact MemoSlot.answer_of_done himported
  change moduleToDescriptor module (engine (depth + 1)) s = _
  rw [moduleToDescriptor, bind_of_ok (query_run _), module?_of_get? hm]
  simp only [h.isImplementation, Bool.false_eq_true, if_false]
  rw [bind_of_ok himport, query_run]
  have hoverlay : (s.values.module? other).any (fun d => d.isDescriptor &&
      d.overlaid.contains module) = true := by
    rw [module?_of_get? hd]
    simp [h.isDescriptor, h.overlaid_eq, ValueSet.contains_single]
  simp [ValueSet.filter, ValueSet.single, Session.hitting, hoverlay]

/-- Makes what a definition in a context defines. -/
def makeDefined (p : Place) (context : ValueId) : Infer ValueId :=
  if p.isClass then makeClass p context else makeFunction p context

/-- An undecorated definition gives what it makes. -/
theorem computeBinding_eq (hplain : decoratorsOf p = []) (scope : Place) :
    computeBinding (p.bindingIn scope) module =
      indented (do return .single (← makeDefined p module)) := by
  unfold computeBinding makeDefined
  cases hclass : p.isClass with
  | true => simp only [Place.bindingIn, hclass, if_true, hplain, applyDecorators, List.reverse_nil,
    List.foldlM_nil]
  | false =>
    simp only [Place.bindingIn, hclass, Bool.false_eq_true, if_false, hplain, applyDecorators,
      List.reverse_nil, List.foldlM_nil]

/-- At the top of a module this is its value there. -/
theorem makeDefined_run (hmodule : s.values.get? module = some (.module m)) :
    makeDefined p module calls s = intern (p.valueIn module) calls s := by
  have hclass : s.values.isClass module = false := by
    simp [Values.isClass, Values.test, hmodule, Value.isClass]
  have hbeyond : s.values.beyondClasses module = module := by
    rw [Values.beyondClasses, hclass]
    rfl
  unfold makeDefined Place.valueIn
  split
  · rfl
  · rw [makeFunction_apply, hbeyond, hclass]
    rfl

/-- The first inference of the name of a definition gives the value of the definition. -/
theorem exists_inferBinding_of_new (hmodule : s.values.get? module = some (.module m))
    (hplain : decoratorsOf p = []) (hnew : s.memo.find? (.binding p.nameKey module) = none)
    (scope : Place) (depth : Nat) :
    ∃ t, inferBinding module (p.bindingIn scope) (engine (depth + 1)) s =
      (.ok (.single (s.intern (p.valueIn module)).1), t) ∧
      t.values = (s.intern (p.valueIn module)).2.values := by
  let started := Session.memoSlot.update (·.start (.binding p.nameKey module) none) s
  let inside : Session := { started with trace := started.trace.indent }
  have hmake : makeDefined p module (engine depth) inside =
      (.ok (s.intern (p.valueIn module)).1, (inside.intern (p.valueIn module)).2) :=
        makeDefined_run hmodule
  have hsingle : (do return .single (← makeDefined p module) : Infer ValueSet) (engine depth)
    inside =
      (.ok (.single (s.intern (p.valueIn module)).1), (inside.intern (p.valueIn module)).2) :=
        bind_of_ok hmake
  have hcompute : computeBinding (p.bindingIn scope) module (engine depth) started =
      (.ok (.single (s.intern (p.valueIn module)).1), { (inside.intern (p.valueIn module)).2 with
        trace := (inside.intern (p.valueIn module)).2.trace.outdent }) := by
    rw [computeBinding_eq hplain, indented_apply, hsingle]
  exact ⟨_, MemoSlot.answer_of_ok hnew hcompute, rfl⟩

/-- An instance is converted through its class. -/
theorem convert_inst {inst cls : ValueId} {arguments : ArgumentsId}
    (hget : s.values.get? inst = some (.inst cls arguments none)) (hlt : cls < inst) :
    convert side inst calls s = (do
      let converted ← convert side cls
      let classes ← query fun values => converted.filter values.isClass
      gather classes.ids (makeInstance · arguments)) calls s := by
  rw [convert, bind_of_ok (query_run _), hget]
  simp [hlt]

/-- One class makes one instance. -/
theorem makeInstance_of_isClass (hclass : s.values.isClass other = true) (arguments : ArgumentsId) :
    (do
      let classes ← query fun values => (ValueSet.single other).filter values.isClass
      gather classes.ids (makeInstance · arguments) : Infer ValueSet) calls s =
    (.ok (.single (s.intern (.inst other arguments none)).1),
      (s.intern (.inst other arguments none)).2) := by
  have hfilter : (ValueSet.single other).filter s.values.isClass = .single other := by
    simp [ValueSet.filter, ValueSet.single, hclass]
  rw [bind_of_ok (query_run _), hfilter]
  rfl

end Infer

/-- A module from the first tree. -/
def ModuleValue.plainSample : ModuleValue := { tree := some 0, names := ["foo"] }

/-- A descriptor from the second tree that overlays the first value. -/
def ModuleValue.overlaySample : ModuleValue :=
  { tree := some 1, names := ["foo"], isDescriptor := true, overlaid := .single 0 }

/-- A module, its descriptor, what either defines, and an instance of each. -/
def Values.overlayItems (p q : Place) : List (Value Place) :=
  [.module .plainSample, .module .overlaySample, p.valueIn 1, q.valueIn 0, .inst 2 0 none,
    .inst 3 0 none]

/-- The arena that holds them. -/
@[irreducible]
def Values.overlay (p q : Place) : Values :=
  (({} : Values).internAll (·.map Place.key) (overlayItems p q)).2

theorem Values.consistent_overlay (p q : Place) : (overlay p q).Consistent := by
  unfold overlay
  exact (Arena.holds_internAll _ _).consistent

theorem Values.get?_overlay (p q : Place) (id : ValueId) :
    (overlay p q).get? id = (overlayItems p q)[id]? := by
  unfold overlay
  refine Arena.get?_internAll ?_ id
  rcases p.valueIn_cases 1 with hp | hp <;> rcases q.valueIn_cases 0 with hq | hq <;>
    simp [overlayItems, hp, hq, Value.map, ModuleValue.plainSample, ModuleValue.overlaySample]

/-- A session that has imported a module with its descriptor and inferred a name in the descriptor.
-/
def Session.ofOverlay (m d : Module) (p q : Place) : Session where
  values := .overlay p q
  trees := #[.ofModule 0 m, .ofModule 1 d]
  memo := (({} : Memo Question Answer).finish (.importing "foo") (.single 1)).finish
    (.binding p.nameKey 1) (.single 2)

/-- A class, as it is implemented or described. -/
def Source.classSample (x : String) (isDescriptor : Bool) : Source :=
  ⟨Text.ofString ("class " ++ x ++ (if isDescriptor then ": ...\n" else ":\n    pass\n")), []⟩

/-- A module that is one undecorated class, of which the name is bound once. -/
def Module.isClassOnly (m : Module) (n : Nat) (x : Text) : Bool :=
  (match m.root.form with | .module _ => true | _ => false) &&
  (Place.root n m).children.any (fun p => p.isClass && p.definedName? == some x &&
    (Infer.decoratorsOf p).isEmpty) &&
  ((Place.root n m).moduleEntries.filterMap (IndexEntry.binding? (Place.root n m) x)).length == 1

theorem Module.exists_defines_of_isClassOnly {m : Module} {n : Nat} (h : m.isClassOnly n x = true) :
    ∃ p, m.Defines n x p ∧ p.isClass = true := by
  simp only [Module.isClassOnly, Bool.and_eq_true, List.any_eq_true, beq_iff_eq,
    List.isEmpty_iff] at h
  obtain ⟨⟨hmodule, p, hp, ⟨hclass, hname⟩, hplain⟩, honce⟩ := h
  rw [← ScopeIndex.lookup_ofModule] at honce
  refine ⟨p, ⟨?_, hp, hname, hplain, honce⟩, hclass⟩
  split at hmodule
  · next body hform => exact ⟨body, hform⟩
  · cases hmodule

/-- A session that has read the two sources, if each of them defines the class. -/
theorem Session.exists_ofOverlay {x : String}
    (h : ∀ isDescriptor, (Module.ofSource (.classSample x isDescriptor)).map
      (·.isClassOnly isDescriptor.toNat (Text.ofString x)) = .ok true) :
    ∃ m d p q, Module.ofSource (.classSample x false) = .ok m ∧
      Module.ofSource (.classSample x true) = .ok d ∧
      (ofOverlay m d p q).Defines 1 .overlaySample 1 d x p ∧
      (ofOverlay m d p q).Defines 0 .plainSample 0 m x q ∧ p.isClass = true := by
  obtain ⟨m, hm, hclass⟩ := exists_of_map_eq_ok (h false)
  obtain ⟨d, hd, hclass'⟩ := exists_of_map_eq_ok (h true)
  obtain ⟨q, hq, -⟩ := Module.exists_defines_of_isClassOnly hclass
  obtain ⟨p, hp, hpclass⟩ := Module.exists_defines_of_isClassOnly hclass'
  exact ⟨m, d, p, q, hm, hd, ⟨hp, get?_overlay p q 1, rfl, rfl⟩, ⟨hq, get?_overlay p q 0, rfl, rfl⟩,
    hpclass⟩

namespace Infer

variable {s : Session} {described module id : ValueId} {d m : ModuleValue} {n n' : Nat}
  {source source' : Module}

/-- What a module defines under a public name is described by what the name was inferred to in the
descriptor. -/
theorem convert_described (h : d.Overlays m module) (hd : s.Defines described d n' source' x p)
    (hm : s.Defines module m n source x q) (hpublic : isPrivate x = false)
    (himported : s.memo.find? (.importing (Text.dotted m.names)) = some (.done (.single described)))
    (hknown : s.memo.find? (.binding p.nameKey described) = some (.done (.single id)))
    {found : ValueId} (hfound : module < found)
    (hget : s.values.get? found = some (q.valueIn module)) (depth : Nat) :
    convert .descriptor found (engine (depth + 2)) s =
      match layersOf described none (engine (depth + 1)) (s.hitting 1) with
      | (.error e, t) => (.error e, t)
      | (.ok _, t) => (.ok (.single id), t.hitting 1) := by
  have hmodule := convertModule_descriptor h hm.module_eq hd.module_eq himported (depth + 1)
  rw [convert_of_valueIn hm (by rw [h.isImplementation]; rfl) hget hfound hmodule,
    attrOf_eq (hd.evolves (s.evolves_hitting 1)) (by rw [hpublic, Bool.and_false]), bind_apply]
  cases hrun : layersOf described none (engine (depth + 1)) (s.hitting 1) with
  | mk outcome t =>
    cases outcome with
    | error e => rfl
    | ok layers =>
      -- the answer is kept while the layers are found
      have hevolves := (s.evolves_hitting 1).trans (evolves_of_run (steady_engine (depth + 1)) hrun)
      exact MemoSlot.answer_of_done (hevolves.answers _ _ hknown)

end Infer

end NameInference

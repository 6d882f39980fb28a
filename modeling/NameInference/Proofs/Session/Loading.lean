import NameInference.Proofs.Session.Contexts

/-!
# Modules loaded from a source

A source that is accepted is loaded: its tree is kept, and the module that refers to the tree is
interned. It stays so in all later sessions.
-/

namespace NameInference

theorem SessionM.bind_of_ok {α β : Type} {step : SessionM α} {next : α → SessionM β} {s t : Session}
    {a : α} (h : step s = (.ok a, t)) : (step >>= next) s = next a t :=
  @Infer.bind_of_ok α β (fun _ => step) (fun a _ => next a) (engine 0) s t a h

namespace Session

variable {s t loaded : Session} {module : ValueId} {code path : Text} {names : List Text} {n : Nat}
  {m : Module}

/-- The handle is that of a module whose source is kept as the given tree. -/
structure Loaded (s : Session) (module : ValueId) (n : Nat) (m : Module) : Prop where
  isModule : s.values.isModule module = true
  tree?_eq : s.values.tree? module = some n
  stored : s.tree? n = some (.ofModule n m)

theorem Loaded.treeOf?_eq (h : s.Loaded module n m) : s.treeOf? module = some (.ofModule n m) := by
  rw [treeOf?, h.tree?_eq, Option.bind_some, h.stored]

theorem Loaded.evolves (h : s.Loaded module n m) (hevolves : s.Evolves t) :
    t.Loaded module n m := by
  have hlt := (Values.settled_of_isModule h.isModule).lt_size
  have hmodule : t.values.isModule module = true :=
    (Values.test_eq_of_keeps hevolves.values hlt _).trans h.isModule
  refine ⟨hmodule, ?_, hevolves.trees _ _ h.stored⟩
  rw [Values.tree?_of_isModule hmodule, Values.module?, hevolves.values.get?_eq hlt,
    ← Values.module?, ← Values.tree?_of_isModule h.isModule, h.tree?_eq]

/-- A context in a module leads to the tree of the module. -/
theorem Loaded.treeOf?_of_root (h : s.Loaded module n m) {context : ValueId}
    (hroot : s.values.root context = module) :
    s.treeOf? context = some (.ofModule n m) := by
  rw [← h.treeOf?_eq, treeOf?, treeOf?, Values.tree?, Values.tree?, hroot,
    Values.root_of_isModule h.isModule]

theorem fst_internModule (value : ModuleValue) (s : Session) :
    (s.internModule value).1 = (s.intern (.module value)).1 := by
  unfold internModule
  simp only
  split
  · rfl
  · split <;> rfl

theorem remembered_importNamesFor (path : Text) (s : Session) :
    (s.importNamesFor path).2.remembered = s.remembered := by
  unfold importNamesFor
  dsimp only
  split <;> rfl

theorem memo_internModule (value : ModuleValue) (s : Session) :
    (s.internModule value).2.memo = s.memo := by
  unfold internModule
  simp only
  split
  · rfl
  · split <;> exact congrArg (·.1) (remembered_debug _ _)

/-- The tree is kept; then a module that refers to it is interned. -/
theorem loadSource_eq (hm : Module.ofSource ⟨code, path⟩ = .ok m) (names : List Text)
    (s : Session) :
    ∃ (named : Session) (value : ModuleValue), named.remembered =
      (s.storeTree m path).2.remembered ∧ value.tree = some s.trees.size ∧ value.overlaid.ids = [] ∧
      loadSource code path names s =
        (.ok (named.internModule value).1, (named.internModule value).2) := by
  have hparse : parseSource code path s = (.ok s.trees.size, (s.storeTree m path).2) := by
    rw [parseSource, hm]
    rfl
  rw [loadSource, SessionM.bind_of_ok hparse]
  dsimp only
  -- The module has the given names, or else those of its path.
  split
  · exact ⟨_, _, remembered_importNamesFor path _, rfl, rfl, rfl⟩
  · exact ⟨_, _, rfl, rfl, rfl, rfl⟩

/-- A source that is not accepted is not loaded. -/
theorem exists_ofSource_of_loadSource
    (hload : loadSource code path names s = (.ok module, loaded)) :
    ∃ m, Module.ofSource ⟨code, path⟩ = .ok m := by
  cases hm : Module.ofSource ⟨code, path⟩ with
  | ok m => exact ⟨m, rfl⟩
  | error e =>
    rw [loadSource, parseSource, hm] at hload
    cases hload

/-- What is interned as a module is that module, in every later session whose handles lead to what
was interned. -/
theorem get?_of_internModule {value : ModuleValue} (hlater : (s.internModule value).2.Evolves t)
    (ht : t.values.Consistent) :
    t.values.get? (s.internModule value).1 = some (.module value) := by
  have hkeeps := hlater.values
  rw [values_internModule] at hkeeps
  have hagain : Arena.intern (·.map Place.key) t.values (.module value) =
    ((s.intern (.module value)).1, t.values) :=
    hkeeps.intern_again
  have hget := ht.get?_intern (.module value)
  rw [hagain, ← fst_internModule] at hget
  obtain ⟨found, hfound, hkey⟩ := Option.map_eq_some_iff.mp hget
  cases found with
  | module value' =>
    cases hkey
    exact hfound
  | _ => cases hkey

/-- A module that was loaded from a source is the module of that source from then on. -/
theorem loaded_of_loadSource (hload : loadSource code path names s = (.ok module, loaded))
    (hlater : loaded.Evolves t) (ht : t.values.Consistent) :
    ∃ m, Module.ofSource ⟨code, path⟩ = .ok m ∧ t.Loaded module s.trees.size m := by
  obtain ⟨m, hm⟩ := exists_ofSource_of_loadSource hload
  obtain ⟨named, value, hsame, htree, -, heq⟩ := loadSource_eq hm names s
  cases heq.symm.trans hload
  have hget := get?_of_internModule hlater ht
  have hmodule : t.values.isModule (named.internModule value).1 = true := by
    simp [Values.isModule, Values.test, hget, Value.isModule]
  have hstored : named.tree? s.trees.size = some (.ofModule s.trees.size m) := by
    have htrees : named.trees = s.trees.push (.ofModule s.trees.size m) :=
      congrArg (·.2.2.2.1) hsame
    rw [tree?, htrees]
    exact Array.getElem?_push_size
  refine ⟨m, hm, hmodule, ?_, ((named.evolves_internModule _).trans hlater).trees _ _ hstored⟩
  rw [Values.tree?_of_isModule hmodule, Values.module?, hget]
  exact htree

/-- An accepted source is loaded. The session stays orderly, and no question is asked. -/
theorem exists_loadSource (hs : s.Orderly) (hm : Module.ofSource ⟨code, path⟩ = .ok m)
    (names : List Text) :
    ∃ module loaded, loadSource code path names s = (.ok module, loaded) ∧ loaded.Orderly ∧
      loaded.memo = s.memo ∧ loaded.Loaded module s.trees.size m := by
  obtain ⟨named, value, hsame, -, hoverlaid, heq⟩ := loadSource_eq hm names s
  have hvalues : named.values = s.values := congrArg (·.2.1) hsame
  have hconsistent := (named.evolves_internModule value).consistent (hvalues ▸ hs.consistent)
  have hdescending : (named.internModule value).2.values.Descending := by
    rw [values_internModule]
    exact Values.Descending.intern (hvalues ▸ hs.descending) _
      (by simp [Value.references, hoverlaid])
  obtain ⟨m', hm', hloaded⟩ := loaded_of_loadSource heq (.refl _) hconsistent
  cases hm.symm.trans hm'
  exact ⟨_, _, heq, ⟨hconsistent, hdescending⟩,
    (memo_internModule value named).trans (congrArg (·.1) hsame), hloaded⟩

theorem orderly_new (files : Files) (settings : Settings) (traced : Bool) :
    (Session.new files settings traced).Orderly :=
  ⟨(sound_new files settings traced).consistent, Values.descending_empty⟩

end Session

end NameInference

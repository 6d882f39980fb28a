import NameInference.Inference.Engine
import NameInference.Proofs.Except
import NameInference.Proofs.Inference.Ensures
import NameInference.Proofs.Memo.Entries
import NameInference.Proofs.Scope.Entries
import NameInference.Proofs.Star.Traversal
import NameInference.Proofs.Value.Interning

/-!
# Star imports of a session

The modules of a session form a graph of star imports, as far as what they import is loaded. The
graph is read off the values, the sources and the recorded imports, which stay as they are when star
imports are asked for. Three sources, of which the first two import each other, give an example.
-/

namespace NameInference

variable {f : Memo Question Answer → Memo Question Answer} {state : List ValueId × StarTable}
  {names : List (List Text)}

namespace Session

variable {s t u : Session} {m : ValueId} {stmt : Place} {names : List Text}

/-- The star imports at the top level of a module. -/
def starStatements (s : Session) (m : ValueId) : List Place :=
  ((s.treeOf? m).map fun t => t.index.get.starsOf t.root).getD []

/-- The names of the module that a `from` import names; none if it climbs too far. -/
def fromNames? (s : Session) (m : ValueId) (stmt : Place) : Option (List Text) :=
  if (Infer.fromPart stmt).2 == 0 then some (Infer.fromPart stmt).1
  else s.relativeNames? m (Infer.fromPart stmt).2 (Infer.fromPart stmt).1

/-- The modules that have been imported under some names. -/
def imported? (s : Session) (names : List Text) : Option ValueSet :=
  if names.isEmpty then some ∅
  else match s.memo.find? (.importing (Text.dotted names)) with
    | some (.done set) => some set
    | _ => none

/-- The modules that a star import has led to. -/
def starTargets (s : Session) (m : ValueId) (stmt : Place) : List ValueId :=
  (((s.fromNames? m stmt).bind s.imported?).map (·.ids)).getD []

/-- Whether the module has source. -/
def hasSource (s : Session) (m : ValueId) : Bool := (s.values.module? m).any (·.tree.isSome)

/-- The star imports of the modules of a session. -/
def starGraph (s : Session) : StarGraph := fun m =>
  if s.hasSource m then some ((s.starStatements m).flatMap (s.starTargets m)) else none

/-- What the modules star-import is loaded. -/
def Resolved (s : Session) : Prop :=
  ∀ m, s.hasSource m = true → ∀ stmt ∈ s.starStatements m, ∀ names, s.fromNames? m stmt =
    some names → ∃ set, s.imported? names = some set

/-- What is known about star imports. -/
def starTable (s : Session) : StarTable := fun m => s.memo.find? (.starModules m)

theorem lt_size_of_starGraph (h : (s.starGraph m).isSome = true) : m < s.values.size := by
  apply Arena.lt_size_of_ne_none
  intro hnone
  simp [starGraph, hasSource, Values.module?, hnone] at h

theorem outcome_collect (s : Session) (depth : Nat) (table : StarTable) (m : ValueId)
    (hready : s.starGraph.Ready table m)
    (hdepth : (StarGraph.unasked s.values.size table).card < depth) :
    s.starGraph.Outcome table m (s.starGraph.collect depth table m) :=
  StarGraph.outcome_collect (fun _ => lt_size_of_starGraph) depth table m hready hdepth

/-- The values and the sources are the same, and all that is known but star imports. -/
structure Alike (s t : Session) : Prop where
  values_eq : t.values = s.values
  trees_eq : t.trees = s.trees
  others : ∀ q, (∀ m, q ≠ .starModules m) → t.memo.find? q = s.memo.find? q

namespace Alike

theorem refl (s : Session) : s.Alike s := ⟨rfl, rfl, fun _ _ => rfl⟩

theorem trans (h : s.Alike t) (h' : t.Alike u) : s.Alike u :=
  ⟨h'.values_eq.trans h.values_eq, h'.trees_eq.trans h.trees_eq, fun q hq =>
    (h'.others q hq).trans (h.others q hq)⟩

theorem hasSource_eq (h : s.Alike t) (m : ValueId) : t.hasSource m = s.hasSource m := by
  rw [hasSource, hasSource, h.values_eq]

theorem starStatements_eq (h : s.Alike t) (m : ValueId) :
    t.starStatements m = s.starStatements m := by
  have htree : t.tree? = s.tree? := funext fun tree => by rw [tree?, tree?, h.trees_eq]
  rw [starStatements, starStatements, treeOf?, treeOf?, h.values_eq, htree]

theorem fromNames?_eq (h : s.Alike t) (m : ValueId) (stmt : Place) :
    t.fromNames? m stmt = s.fromNames? m stmt := by
  simp only [fromNames?, relativeNames?, h.values_eq]

theorem imported?_eq (h : s.Alike t) (names : List Text) :
    t.imported? names = s.imported? names := by
  rw [imported?, imported?, h.others _ (by simp)]

theorem starTargets_eq (h : s.Alike t) (m : ValueId) (stmt : Place) :
    t.starTargets m stmt = s.starTargets m stmt := by
  simp only [starTargets, h.fromNames?_eq, funext h.imported?_eq]

theorem resolved (h : s.Alike t) (hs : s.Resolved) : t.Resolved := by
  intro m hm stmt hstmt names hnames
  rw [h.hasSource_eq] at hm
  rw [h.starStatements_eq] at hstmt
  rw [h.fromNames?_eq] at hnames
  rw [h.imported?_eq]
  exact hs m hm stmt hstmt names hnames

end Alike

/-- The session differs from an earlier one in star imports only, and its table of them is the given
one. -/
structure Holds (s : Session) (table : StarTable) (t : Session) : Prop extends s.Alike t where
  table_eq : t.starTable = table

/-- A step on the memo that changes one entry of a table. -/
theorem Holds.update {table : StarTable} (h : s.Holds table t)
    {entry : MemoEntry (List ValueId)} (hself : (f t.memo).find? (.starModules m) = some entry)
    (hothers : ∀ q, q ≠ .starModules m → (f t.memo).find? q = t.memo.find? q) :
    s.Holds (Function.update table m (some entry)) (memoSlot.update f t) := by
  refine ⟨h.toAlike.trans ⟨rfl, rfl, fun q hq => hothers q (hq m)⟩, funext fun c => ?_⟩
  by_cases hc : c = m
  · subst hc
    rw [Function.update_self]
    exact hself
  · rw [Function.update_of_ne hc, ← h.table_eq]
    exact hothers (.starModules c) (by simpa using hc)

/-- The entry of a growing list. -/
theorem Holds.entry (h : s.Holds (StarGraph.view m state) t) :
    t.memo.find? (.starModules m) = some (.running (some state.1)) :=
  (congrFun h.table_eq m).trans (StarGraph.view_self m state)

theorem Holds.sofar (h : s.Holds (StarGraph.view m state) t) :
    (t.memo.sofar? (.starModules m)).getD [] = state.1 := by
  rw [Memo.sofar?, h.entry]
  rfl

/-- What a growing list becomes. -/
theorem Holds.update_view (h : s.Holds (StarGraph.view m state) t)
    {entry : MemoEntry (List ValueId)}
    (hself : (f t.memo).find? (.starModules m) = some entry)
    (hothers : ∀ q, q ≠ .starModules m → (f t.memo).find? q = t.memo.find? q) :
    s.Holds (Function.update state.2 m (some entry)) (memoSlot.update f t) := by
  have hupdate := h.update hself hothers
  rwa [StarGraph.view, Function.update_idem] at hupdate

/-- A step on the memo that changes no entry. -/
theorem Holds.same {table : StarTable} (h : s.Holds table t)
    (hf : ∀ q, (f t.memo).find? q = t.memo.find? q) : s.Holds table (memoSlot.update f t) :=
  ⟨h.toAlike.trans ⟨rfl, rfl, fun q _ => hf q⟩, h.table_eq ▸ funext fun c => hf (.starModules c)⟩

end Session

namespace Session

variable {s : Session} {m : ValueId}

/-- The module star-imports modules of the given names, with no dots before them. -/
def StarImports (s : Session) (m : ValueId) (names : List (List Text)) : Prop :=
  (s.starStatements m).map Infer.fromPart = names.map (·, 0)

theorem starTargets_of_fromPart {stmt : Place} {names : List Text}
    (h : Infer.fromPart stmt = (names, 0)) :
    s.starTargets m stmt = ((s.imported? names).map (·.ids)).getD [] := by
  rw [starTargets, fromNames?, h]
  rfl

/-- The statements that import modules of some names lead to what has been imported under these
names. -/
theorem starTargets_of_map_fromPart {stmts : List Place}
    (h : stmts.map Infer.fromPart = names.map (·, 0)) :
    stmts.flatMap (s.starTargets m) = names.flatMap fun n =>
      ((s.imported? n).map (·.ids)).getD [] := by
  induction stmts generalizing names with
  | nil =>
    obtain rfl : names = [] := List.map_eq_nil_iff.mp h.symm
    rfl
  | cons stmt stmts ih =>
    cases names with
    | nil => cases h
    | cons n names =>
      obtain ⟨hpart, hrest⟩ := List.cons.inj h
      rw [List.flatMap_cons, List.flatMap_cons, starTargets_of_fromPart hpart, ih hrest]

theorem starGraph_of_starImports (hm : s.hasSource m = true) (h : s.StarImports m names) :
    s.starGraph m = some (names.flatMap fun n => ((s.imported? n).map (·.ids)).getD []) := by
  rw [starGraph, if_pos hm, starTargets_of_map_fromPart h]

/-- If all modules star-import by names that have been imported, what they star-import is loaded. -/
theorem resolved_of_starImports
    (h : ∀ m, s.hasSource m = true → ∃ names, s.StarImports m names ∧
      ∀ n ∈ names, ∃ set, s.imported? n = some set) : s.Resolved := by
  intro m hm stmt hstmt found hfound
  obtain ⟨names, hnames, himported⟩ := h m hm
  have hpart : Infer.fromPart stmt ∈ names.map (·, 0) := hnames ▸ List.mem_map_of_mem hstmt
  obtain ⟨n, hn, hpart⟩ := List.mem_map.mp hpart
  rw [fromNames?, ← hpart] at hfound
  cases hfound
  exact himported n hn

end Session

theorem Session.imported?_of_find? {s : Session} {names : List Text} {set : ValueSet}
    (hne : names ≠ []) (h : s.memo.find? (.importing (Text.dotted names)) = some (.done set)) :
    s.imported? names = some set := by
  rw [imported?, if_neg (by simpa using hne), h]

/-- Three modules: the first imports the others, the second the first, the third none. -/
def StarGraph.cycleSample : StarGraph
  | 0 => some [1, 2]
  | 1 => some [0]
  | 2 => some []
  | _ => none

/-- Sources of the three modules. -/
def Source.cycleSample : Nat → Source
  | 0 => ⟨"from b import *\nfrom c import *\n", []⟩
  | 1 => ⟨"from a import *\n", []⟩
  | _ => ⟨"x = 1\n", []⟩

/-- The three modules, with one source each. -/
def Values.cycleModules : Values :=
  { items := #[.module { tree := some 0, names := ["a"] },
    .module { tree := some 1, names := ["b"] }, .module { tree := some 2, names := ["c"] }] }

/-- A session that has loaded three modules `a`, `b` and `c`. -/
def Session.ofThree (modules : Nat → Module) : Session where
  values := .cycleModules
  trees := (Array.range 3).map fun tree => .ofModule tree (modules tree)
  memo := ((({} : Memo Question Answer).finish (.importing "a") (.single 0)).finish (.importing "b")
    (.single 1)).finish (.importing "c") (.single 2)

/-- What a session of three modules has recorded. -/
theorem Session.find?_ofThree (modules : Nat → Module) :
    (ofThree modules).imported? ["a"] = some (.single 0) ∧ (ofThree modules).imported? ["b"] =
      some (.single 1) ∧ (ofThree modules).imported? ["c"] = some (.single 2) ∧
      ∀ m, (ofThree modules).memo.find? (.starModules m) = none := by
  have hab : Question.importing "a" ≠ .importing "b" := by decide +kernel
  have hac : Question.importing "a" ≠ .importing "c" := by decide +kernel
  have hbc : Question.importing "b" ≠ .importing "c" := by decide +kernel
  have hname (name : Text) (set : ValueSet)
    (h : (ofThree modules).memo.find? (.importing name) = some (.done set)) :
      (ofThree modules).imported? [name] = some set := imported?_of_find? (by simp) h
  refine ⟨hname _ _ ?_, hname _ _ ?_, hname _ _ ?_, fun m => ?_⟩
  all_goals simp [ofThree, Memo.find?_finish_of_ne, hab, hac, hbc]

theorem Session.hasSource_ofThree (modules : Nat → Module) (m : ValueId) :
    (ofThree modules).hasSource m = true ↔ m < 3 := by
  have hall : ∀ m < 3, (Values.cycleModules.module? m).any (·.tree.isSome) = true := by
    decide +kernel
  refine ⟨fun hm => ?_, hall m⟩
  have hgraph : ((ofThree modules).starGraph m).isSome = true := by
    rw [starGraph, if_pos hm]
    rfl
  exact lt_size_of_starGraph hgraph

/-- A module of the three star-imports what its source says. -/
theorem Session.starImports_ofThree {modules : Nat → Module} {m : ValueId} (hm : m < 3)
    (h : ((Place.root m (modules m)).moduleEntries.filterMap
      (·.star? (Place.root m (modules m)))).map Infer.fromPart =
      names.map (·, 0)) : (ofThree modules).StarImports m names := by
  have htree : ∀ m < 3, Values.cycleModules.tree? m = some m := by decide +kernel
  have hvalues : (ofThree modules).values.tree? m = some m := htree m hm
  have hstored : (ofThree modules).tree? m = some (.ofModule m (modules m)) := by
    simp [tree?, ofThree, hm]
  rw [← ScopeIndex.starsOf_ofModule] at h
  rw [StarImports, starStatements, treeOf?, hvalues, Option.bind_some, hstored]
  exact h

/-- The sources can be read, and the graph of the session that has loaded them is the cycle. -/
theorem Session.exists_ofThree_cycleSample :
    ∃ modules, (∀ i < 3, Module.ofSource (.cycleSample i) = .ok (modules i)) ∧
      (ofThree modules).Resolved ∧ (ofThree modules).starGraph = .cycleSample := by
  have hread (i : Nat) (names : List (List Text))
      (h : (Module.ofSource (.cycleSample i)).map (fun m =>
      ((Place.root i m).moduleEntries.filterMap (·.star? (Place.root i m))).map Infer.fromPart) =
        .ok (names.map (·, 0))) := exists_of_map_eq_ok h
  obtain ⟨a, ha, hstarsA⟩ := hread 0 [["b"], ["c"]] (by decide +kernel)
  obtain ⟨b, hb, hstarsB⟩ := hread 1 [["a"]] (by decide +kernel)
  obtain ⟨c, hc, hstarsC⟩ := hread 2 [] (by decide +kernel)
  let modules : Nat → Module
    | 0 => a
    | 1 => b
    | _ => c
  have hA : (ofThree modules).StarImports 0 [["b"], ["c"]] :=
    starImports_ofThree (by decide) hstarsA
  have hB : (ofThree modules).StarImports 1 [["a"]] := starImports_ofThree (by decide) hstarsB
  have hC : (ofThree modules).StarImports 2 [] := starImports_ofThree (by decide) hstarsC
  have hsource (m : ValueId) := hasSource_ofThree modules m
  obtain ⟨himportsA, himportsB, himportsC, -⟩ := find?_ofThree modules
  refine ⟨modules, fun i hi => ?_, resolved_of_starImports fun m hm => ?_, funext fun m => ?_⟩
  · match i, hi with
    | 0, _ => exact ha
    | 1, _ => exact hb
    | 2, _ => exact hc
  · match m, (hsource m).mp hm with
    | 0, _ => exact ⟨_, hA, by simp [himportsB, himportsC]⟩
    | 1, _ => exact ⟨_, hB, by simp [himportsA]⟩
    | 2, _ => exact ⟨_, hC, by simp⟩
  · match m with
    | 0 =>
      rw [starGraph_of_starImports ((hsource 0).mpr (by decide)) hA]
      simp [himportsB, himportsC, ValueSet.single, StarGraph.cycleSample]
    | 1 =>
      rw [starGraph_of_starImports ((hsource 1).mpr (by decide)) hB]
      simp [himportsA, ValueSet.single, StarGraph.cycleSample]
    | 2 =>
      rw [starGraph_of_starImports ((hsource 2).mpr (by decide)) hC]
      rfl
    | m + 3 => exact if_neg (by simp [hsource])

end NameInference

import Mathlib.Data.Finset.Range
import Mathlib.Data.Finset.Card
import Mathlib.Data.Finset.Filter
import Mathlib.Logic.Function.Basic
import Mathlib.Logic.Relation
import NameInference.Memo
import NameInference.Proofs.Inference.AppendNew

/-!
# Collecting modules along star imports

The modules that a module star-imports, also through others, are collected depth first. A module
that is met again while its own list grows gives what the list holds so far, so a list that is
collected inside a cycle may miss modules, and stays so. What it cannot miss comes from imported
modules that do not lead back, and from modules that no question before has reached.
-/

namespace NameInference

open List

variable {state : List ValueId × StarTable}

/-- The star imports of modules: what a module with source imports, import after import. -/
abbrev StarGraph := ValueId → Option (List ValueId)

/-- What is known about the lists of modules. -/
abbrev StarTable := ValueId → Option (MemoEntry (List ValueId))

namespace StarGraph

variable (graph : StarGraph)

/-- One module star-imports the other. -/
def Imports (m x : ValueId) : Prop := ∃ targets, graph m = some targets ∧ x ∈ targets

/-- One module leads to the other over star imports. -/
abbrev Reaches : ValueId → ValueId → Prop := Relation.ReflTransGen graph.Imports

/-- One module star-imports the other, which does not lead back. -/
def OneWay (m x : ValueId) : Prop := graph.Imports m x ∧ ¬ graph.Reaches x m

/-- The table of a state in which the list of a module grows. -/
def view (m : ValueId) (state : List ValueId × StarTable) : StarTable :=
  Function.update state.2 m (some (.running (some state.1)))

/-- Follows one import of a module: the target and the modules of its list are new in the list of
the module. -/
def follow (ask : StarTable → ValueId → List ValueId × StarTable) (m : ValueId)
    (state : List ValueId × StarTable) (target : ValueId) : List ValueId × StarTable :=
  if target = m then state
  else
    let list := Infer.appendNew state.1 target
    let (nested, table) := ask (view m (list, state.2)) target
    ((nested.filter (· != m)).foldl Infer.appendNew list, table)

/-- The list of a module and what is known then. -/
def collect : (depth : Nat) → StarTable → ValueId → List ValueId × StarTable
  | 0, table, _ => ([], table)
  | depth + 1, table, m =>
    match graph m, table m with
    | none, _ => ([], table)
    | some _, some (.done list) => (list, table)
    | some _, some (.running sofar) => (sofar.getD [], table)
    | some targets, none =>
      let state := targets.foldl (follow (collect depth) m) ([], table)
      (state.1, Function.update state.2 m (some (.done state.1)))

/-- The lists of modules that are asked for one after the other. -/
def collectAll (depth : Nat) : StarTable → List ValueId → List (List ValueId) × StarTable
  | table, [] => ([], table)
  | table, m :: rest =>
    let (list, table) := graph.collect depth table m
    let (lists, table) := collectAll depth table rest
    (list :: lists, table)

variable {graph} {n : Nat} {table later : StarTable} {m c x y : ValueId} {list : List ValueId}

theorem Imports.ne_none (h : graph.Imports m x) : graph m ≠ none := by
  obtain ⟨targets, htargets, -⟩ := h
  rw [htargets]
  exact Option.some_ne_none targets

/-- The later table has all lists that are complete, and all modules that were asked for. -/
structure Extends (table later : StarTable) : Prop where
  done : ∀ c list, table c = some (.done list) → later c = some (.done list)
  asked : ∀ c, table c ≠ none → later c ≠ none

theorem Extends.of_kept (h : ∀ c entry, table c = some entry → later c = some entry) :
    Extends table later where
  done c list hc := h c _ hc
  asked c hc := by
    obtain ⟨entry, hentry⟩ := Option.ne_none_iff_exists'.mp hc
    rw [h c entry hentry]
    simp

theorem Extends.trans {last : StarTable} (h : Extends table later) (h' : Extends later last) :
    Extends table last :=
  ⟨fun c list hc => h'.done c list (h.done c list hc), fun c hc => h'.asked c (h.asked c hc)⟩

/-- What a growing list becomes is more than what it was. -/
theorem Extends.update {sofar : Option (List ValueId)} (h : table m = some (.running sofar))
    (entry : MemoEntry (List ValueId)) : Extends table (Function.update table m (some entry)) := by
  refine ⟨fun c done hc => ?_, fun c hc => ?_⟩
  · have hne : c ≠ m := by
      rintro rfl
      cases h.symm.trans hc
    rw [Function.update_of_ne hne, hc]
  · by_cases hne : c = m
    · subst hne
      simp
    · rwa [Function.update_of_ne hne]

/-- A target of a module has been followed: it is in the list, and so is its own list, unless it
leads back. -/
def Followed (graph : StarGraph) (table : StarTable) (m : ValueId) (list : List ValueId)
    (x : ValueId) : Prop :=
  x ∈ list ∧ (graph x = none ∨
    (∃ more, table x = some (.done more) ∧ ∀ y ∈ more, y = m ∨ y ∈ list) ∨
    table x ≠ none ∧ graph.Reaches x m)

theorem Followed.mono {longer : List ValueId} (h : graph.Followed table m list x)
    (htable : Extends table later) (hlist : list ⊆ longer) : graph.Followed later m longer x := by
  refine ⟨hlist h.1, ?_⟩
  rcases h.2 with hnone | ⟨more, hmore, hsub⟩ | ⟨hasked, hback⟩
  · exact Or.inl hnone
  · exact Or.inr (Or.inl ⟨more, htable.done x more hmore, fun y hy =>
      (hsub y hy).imp_right fun hy => hlist hy⟩)
  · exact Or.inr (Or.inr ⟨htable.asked x hasked, hback⟩)

/-- The list of a module for which all imports have been followed. -/
structure Complete (graph : StarGraph) (table : StarTable) (m : ValueId) (list : List ValueId) :
    Prop where
  nodup : list.Nodup
  self : m ∉ list
  reaches : ∀ x ∈ list, graph.Reaches m x
  followed : ∀ x, graph.Imports m x → x = m ∨ graph.Followed table m list x

theorem Complete.mono (h : graph.Complete table m list) (htable : Extends table later) :
    graph.Complete later m list :=
  ⟨h.nodup, h.self, h.reaches, fun x hx => (h.followed x hx).imp_right fun hx =>
    hx.mono htable fun _ hy => hy⟩

/-- What an entry says while another module is asked for: its list is complete, or it grows and has
led there. -/
def Sound (graph : StarGraph) (table : StarTable) (current c : ValueId) :
    MemoEntry (List ValueId) → Prop
  | .done list => graph.Complete table c list
  | .running sofar => ∃ list, sofar = some list ∧ (∀ x ∈ list, graph.Reaches c x) ∧
    graph.Reaches c current

/-- The table is as it can be when a module is asked for. -/
def Ready (graph : StarGraph) (table : StarTable) (m : ValueId) : Prop :=
  ∀ c entry, table c = some entry → graph.Sound table m c entry

/-- What a question adds: complete lists, which the answer takes over. -/
structure Outcome (graph : StarGraph) (table : StarTable) (m : ValueId)
    (result : List ValueId × StarTable) : Prop where
  kept : ∀ c entry, table c = some entry → result.2 c = some entry
  new : ∀ c, table c = none → result.2 c = none ∨ ∃ list, result.2 c = some (.done list) ∧
    graph.Complete result.2 c list ∧ graph.Reaches m c ∧ (c = m ∨ c ∈ result.1) ∧
    ∀ y ∈ list, y = m ∨ y ∈ result.1
  answer : graph m = none ∧ result.1 = [] ∨ result.2 m = some (.done result.1) ∨
    table m = some (.running (some result.1))

theorem Outcome.of_asked (h : graph m = none ∧ list = [] ∨ table m = some (.done list) ∨
    table m = some (.running (some list))) : graph.Outcome table m (list, table) :=
  ⟨fun _ _ hc => hc, fun _ hc => Or.inl hc, h⟩

/-- Only what can be reached is in an answer. -/
theorem Outcome.reaches {result : List ValueId × StarTable} (h : graph.Outcome table m result)
    (hready : graph.Ready table m) : ∀ x ∈ result.1, graph.Reaches m x := by
  intro x hx
  rcases h.answer with ⟨-, hnil⟩ | hdone | hrunning
  · rw [hnil] at hx
    cases hx
  · cases hentry : table m with
    | none =>
      rcases h.new m hentry with hnone | ⟨list, hlist, hcomplete, -⟩
      · cases hnone.symm.trans hdone
      · cases hlist.symm.trans hdone
        exact hcomplete.reaches x hx
    | some entry =>
      cases (h.kept m entry hentry).symm.trans hdone
      exact (hready m _ hentry).reaches x hx
  · obtain ⟨list, hlist, hreaches, -⟩ := hready m _ hrunning
    cases hlist
    exact hreaches x hx

@[simp] theorem view_self (m : ValueId) (state : List ValueId × StarTable) :
    view m state m = some (.running (some state.1)) := Function.update_self ..

theorem view_of_ne (h : c ≠ m) : view m state c = state.2 c :=
  Function.update_of_ne h ..

theorem view_eq (h : state.2 m = some (.running (some state.1))) : view m state = state.2 :=
  Function.update_eq_self_iff.mpr h.symm

theorem extends_update_view (m : ValueId) (state : List ValueId × StarTable)
    (entry : MemoEntry (List ValueId)) :
    Extends (view m state) (Function.update state.2 m (some entry)) := by
  have hext := Extends.update (view_self m state) entry
  rwa [view, Function.update_idem] at hext

/-- Since the first table the list of a module has grown, and the imports behind have been followed
for it. -/
structure Growing (graph : StarGraph) (table : StarTable) (m : ValueId) (seen : List ValueId)
    (state : List ValueId × StarTable) : Prop where
  kept : ∀ c, c ≠ m → ∀ entry, table c = some entry → state.2 c = some entry
  new : ∀ c, c ≠ m → table c = none → state.2 c = none ∨ ∃ list, state.2 c = some (.done list) ∧
    graph.Complete (view m state) c list ∧ graph.Reaches m c ∧ c ∈ state.1 ∧ ∀ y ∈ list, y = m ∨
    y ∈ state.1
  nodup : state.1.Nodup
  self : m ∉ state.1
  reaches : ∀ x ∈ state.1, graph.Reaches m x
  followed : ∀ x ∈ seen, x = m ∨ graph.Followed (view m state) m state.1 x

namespace Growing

variable {seen : List ValueId} {state : List ValueId × StarTable}

theorem begin (table : StarTable) (m : ValueId) : graph.Growing table m [] ([], table) :=
  ⟨fun _ _ _ hc => hc, fun _ _ hc => Or.inl hc, nodup_nil, not_mem_nil, by simp, by simp⟩

/-- The first table is extended. -/
theorem extends_view (h : graph.Growing table m seen state) (hnone : table m = none) :
    Extends table (view m state) := by
  refine .of_kept fun c entry hc => ?_
  have hne : c ≠ m := by
    rintro rfl
    cases hnone.symm.trans hc
  rw [view_of_ne hne, h.kept c hne entry hc]

/-- A growing list takes in a module that it leads to. -/
theorem append (h : graph.Growing table m seen state) (hx : graph.Imports m x) (hne : x ≠ m) :
    graph.Growing table m seen (Infer.appendNew state.1 x, state.2) := by
  have hsub : state.1 ⊆ Infer.appendNew state.1 x := fun y hy => Infer.mem_appendNew.mpr (Or.inl hy)
  have hext : Extends (view m state) (view m (Infer.appendNew state.1 x, state.2)) :=
    extends_update_view m state _
  refine ⟨h.kept, fun c hc hnone => ?_, Infer.nodup_appendNew h.nodup x, fun hmem => ?_,
    fun y hy => ?_, fun y hy => ?_⟩
  · refine (h.new c hc hnone).imp_right ?_
    rintro ⟨list, hlist, hcomplete, hreaches, hmem, hall⟩
    exact ⟨list, hlist, hcomplete.mono hext, hreaches, hsub hmem,
      fun y hy => (hall y hy).imp_right fun hy => hsub hy⟩
  · rcases Infer.mem_appendNew.mp hmem with hmem | rfl
    · exact h.self hmem
    · exact hne rfl
  · rcases Infer.mem_appendNew.mp hy with hy | rfl
    · exact h.reaches y hy
    · exact .single hx
  · exact (h.followed y hy).imp_right fun hy => hy.mono hext hsub

/-- While a list grows, the modules that led to it and the module itself lead on to its targets. -/
theorem ready (h : graph.Growing table m seen state) (hready : graph.Ready table m)
    (hnone : table m = none) (hx : graph.Imports m x) : graph.Ready (view m state) x := by
  intro c entry hentry
  by_cases hc : c = m
  · subst hc
    cases (view_self c state).symm.trans hentry
    exact ⟨state.1, rfl, h.reaches, .single hx⟩
  · rw [view_of_ne hc] at hentry
    cases hold : table c with
    | none =>
      rcases h.new c hc hold with hnew | ⟨list, hlist, hcomplete, -⟩
      · cases hnew.symm.trans hentry
      · cases hlist.symm.trans hentry
        exact hcomplete
    | some old =>
      cases (h.kept c hc old hold).symm.trans hentry
      have hsound := hready c entry hold
      cases entry with
      | done list => exact hsound.mono (h.extends_view hnone)
      | running sofar =>
        obtain ⟨list, hlist, hreaches, hback⟩ := hsound
        exact ⟨list, hlist, hreaches, hback.tail hx⟩

/-- A target whose list grows has led to the module. -/
theorem reaches_of_running (h : graph.Growing table m seen state) (hready : graph.Ready table m)
    (hne : x ≠ m) {sofar : Option (List ValueId)}
    (hrunning : view m state x = some (.running sofar)) : graph.Reaches x m := by
  rw [view_of_ne hne] at hrunning
  cases hold : table x with
  | none =>
    rcases h.new x hne hold with hnew | ⟨list, hlist, -⟩
    · cases hnew.symm.trans hrunning
    · cases hlist.symm.trans hrunning
  | some old =>
    cases (h.kept x hne old hold).symm.trans hrunning
    obtain ⟨list, hlist, hreaches, hback⟩ := hready x _ hold
    exact hback

/-- The list of a target is taken over. -/
theorem merge (h : graph.Growing table m seen state) (hready : graph.Ready table m)
    (hnone : table m = none) (hx : graph.Imports m x) (hne : x ≠ m) (hmem : x ∈ state.1)
    {nested : List ValueId} (hout : graph.Outcome (view m state) x (nested, later)) :
    graph.Growing table m (seen ++ [x]) ((nested.filter (· != m)).foldl Infer.appendNew state.1,
      later) := by
  have hlist : ∀ y, y ∈ (nested.filter (· != m)).foldl Infer.appendNew state.1 ↔ y ∈ state.1 ∨
      y ∈ nested ∧ y ≠ m := by
    intro y
    rw [Infer.mem_foldl_appendNew, mem_filter, bne_iff_ne]
  generalize hlonger : (nested.filter (· != m)).foldl Infer.appendNew state.1 = longer at hlist
  have hsub : state.1 ⊆ longer := fun y hy => (hlist y).mpr (Or.inl hy)
  have hnested : ∀ y ∈ nested, y = m ∨ y ∈ longer := fun y hy => by
    by_cases hym : y = m
    · exact Or.inl hym
    · exact Or.inr ((hlist y).mpr (Or.inr ⟨hy, hym⟩))
  -- The question about the target has left the growing list as it was.
  have hlater : Extends later (view m (longer, later)) :=
    .update (hout.kept m _ (view_self m state)) _
  have hext : Extends (view m state) (view m (longer, later)) :=
    (Extends.of_kept hout.kept).trans hlater
  refine ⟨fun c hc entry hentry => ?_, fun c hc hcnone => ?_, ?_, fun hm => ?_, fun y hy => ?_,
    fun y hy => ?_⟩
  · exact hout.kept c entry ((view_of_ne hc).trans (h.kept c hc entry hentry))
  · rcases h.new c hc hcnone with hstill | ⟨list, hdone, hcomplete, hreaches, hc', hall⟩
    · refine (hout.new c ((view_of_ne hc).trans hstill)).imp_right ?_
      rintro ⟨list, hdone, hcomplete, hreaches, hc', hall⟩
      refine ⟨list, hdone, hcomplete.mono hlater, hreaches.head hx, ?_, fun y hy => ?_⟩
      · rcases hc' with rfl | hc'
        · exact hsub hmem
        · exact (hnested c hc').resolve_left hc
      · rcases hall y hy with rfl | hy
        · exact Or.inr (hsub hmem)
        · exact hnested y hy
    · exact Or.inr ⟨list, hout.kept c _ ((view_of_ne hc).trans hdone), hcomplete.mono hext,
        hreaches, hsub hc', fun y hy => (hall y hy).imp_right fun hy => hsub hy⟩
  · rw [← hlonger]
    exact Infer.nodup_foldl_appendNew h.nodup
  · rcases (hlist m).mp hm with hm | ⟨-, hm⟩
    · exact h.self hm
    · exact hm rfl
  · rcases (hlist y).mp hy with hy | ⟨hy, -⟩
    · exact h.reaches y hy
    · exact (hout.reaches (h.ready hready hnone hx) y hy).head hx
  · rcases mem_append.mp hy with hy | hy
    · exact (h.followed y hy).imp_right fun hy => hy.mono hext hsub
    · cases mem_singleton.mp hy
      refine Or.inr ⟨hsub hmem, ?_⟩
      rcases hout.answer with ⟨hsource, -⟩ | hdone | hrunning
      · exact Or.inl hsource
      · exact Or.inr (Or.inl ⟨nested, (view_of_ne hne).trans hdone, hnested⟩)
      · have hasked : view m state x ≠ none := by simp [hrunning]
        exact Or.inr (Or.inr ⟨hext.asked x hasked, h.reaches_of_running hready hne hrunning⟩)

/-- A list for which all imports have been followed is complete. -/
theorem finish {targets : List ValueId} (h : graph.Growing table m targets state)
    (hnone : table m = none) (htargets : graph m = some targets) :
    graph.Outcome table m (state.1, Function.update state.2 m (some (.done state.1))) := by
  have hext := extends_update_view m state (.done state.1)
  have hcomplete : graph.Complete (Function.update state.2 m (some (.done state.1))) m state.1 := by
    refine ⟨h.nodup, h.self, h.reaches, fun x hx => ?_⟩
    obtain ⟨targets', htargets', hx⟩ := hx
    cases htargets.symm.trans htargets'
    exact (h.followed x hx).imp_right fun hx => hx.mono hext fun _ hy => hy
  refine ⟨fun c entry hentry => ?_, fun c hc => ?_, Or.inr (Or.inl (Function.update_self ..))⟩
  · have hne : c ≠ m := by
      rintro rfl
      cases hnone.symm.trans hentry
    exact (Function.update_of_ne hne ..).trans (h.kept c hne entry hentry)
  · by_cases hne : c = m
    · subst hne
      exact Or.inr ⟨state.1, Function.update_self .., hcomplete, .refl, Or.inl rfl,
        fun y hy => Or.inr hy⟩
    · simp only [Function.update_of_ne hne]
      refine (h.new c hne hc).imp_right ?_
      rintro ⟨list, hdone, hlist, hreaches, hmem, hall⟩
      exact ⟨list, hdone, hlist.mono hext, hreaches, Or.inr hmem, hall⟩

/-- A module that imports itself has nothing to follow there. -/
theorem skip (h : graph.Growing table m seen state) : graph.Growing table m (seen ++ [m]) state :=
  { h with
    followed := fun x hx => by
      rcases mem_append.mp hx with hx | hx
      · exact h.followed x hx
      · exact Or.inl (mem_singleton.mp hx) }

end Growing

/-- The modules for which nothing has been asked. -/
def unasked (n : Nat) (table : StarTable) : Finset ValueId :=
  {c ∈ Finset.range n | (table c).isNone}

theorem mem_unasked : c ∈ unasked n table ↔ c < n ∧ table c = none := by
  simp [unasked]

theorem card_unasked_le (n : Nat) (table : StarTable) : (unasked n table).card ≤ n :=
  (Finset.card_filter_le _ _).trans_eq (Finset.card_range n)

/-- A module whose list grows has been asked for. -/
theorem Growing.card_unasked_lt {seen : List ValueId}
    (h : graph.Growing table m seen state) (hnone : table m = none) (hm : m < n) :
    (unasked n (view m state)).card < (unasked n table).card := by
  have hself : m ∉ unasked n (view m state) := by simp [mem_unasked]
  refine Finset.card_lt_card ⟨fun c hc => ?_,
    fun hsub => hself (hsub (mem_unasked.mpr ⟨hm, hnone⟩))⟩
  obtain ⟨hlt, hview⟩ := mem_unasked.mp hc
  refine mem_unasked.mpr ⟨hlt, ?_⟩
  by_contra hasked
  exact (h.extends_view hnone).asked c hasked hview

/-- Following one more import keeps a list growing, if the question about the target is answered. -/
theorem Growing.follow {seen : List ValueId}
    {ask : StarTable → ValueId → List ValueId × StarTable} (h : graph.Growing table m seen state)
    (hready : graph.Ready table m) (hnone : table m = none) (hx : graph.Imports m x)
    (hask : ∀ state, graph.Growing table m seen state →
      graph.Outcome (view m state) x (ask (view m state) x)) :
    graph.Growing table m (seen ++ [x]) (follow ask m state x) := by
  rw [StarGraph.follow]
  split
  · next hself => exact hself ▸ h.skip
  · next hne =>
    have happend := h.append hx hne
    exact happend.merge hready hnone hx hne (Infer.mem_appendNew.mpr (Or.inr rfl)) (hask _ happend)

/-- If questions that go on to few modules are answered, the list of a module grows over its
targets. -/
theorem Growing.foldl_follow {ask : StarTable → ValueId → List ValueId × StarTable} {depth : Nat}
    {targets : List ValueId}
    (hask : ∀ table x, graph.Ready table x → (unasked n table).card < depth →
      graph.Outcome table x (ask table x)) (hready : graph.Ready table m) (hnone : table m = none)
    (hm : m < n) (hdepth : (unasked n table).card ≤ depth)
    (htargets : ∀ x ∈ targets, graph.Imports m x) :
    graph.Growing table m targets (targets.foldl (StarGraph.follow ask m) ([], table)) := by
  induction targets using List.reverseRecOn with
  | nil => exact .begin table m
  | append_singleton seen x ih =>
    rw [foldl_append]
    have hx := htargets x (by simp)
    refine (ih fun y hy => htargets y (by simp [hy])).follow hready hnone hx fun state h => ?_
    exact hask _ x (h.ready hready hnone hx) ((h.card_unasked_lt hnone hm).trans_le hdepth)

/-- A question that goes on to fewer modules than the depth allows is answered. -/
theorem outcome_collect (hbound : ∀ m, (graph m).isSome = true → m < n) (depth : Nat)
    (table : StarTable) (m : ValueId) (hready : graph.Ready table m)
    (hdepth : (unasked n table).card < depth) :
    graph.Outcome table m (graph.collect depth table m) := by
  induction depth generalizing table m with
  | zero => exact absurd hdepth (Nat.not_lt_zero _)
  | succ depth ih =>
    rw [collect]
    split
    · next hsource => exact .of_asked (Or.inl ⟨hsource, rfl⟩)
    · next hdone => exact .of_asked (Or.inr (Or.inl hdone))
    · next hrunning =>
      obtain ⟨list, rfl, -⟩ := hready m _ hrunning
      exact .of_asked (Or.inr (Or.inr hrunning))
    · next targets htargets hnone =>
      have hm : m < n := hbound m (by rw [htargets]; rfl)
      have hgrowing := Growing.foldl_follow ih hready hnone hm (Nat.le_of_lt_succ hdepth)
        fun x hx => ⟨targets, htargets, hx⟩
      exact hgrowing.finish hnone htargets

/-- Every list is complete, and only modules that the questions before lead to have been asked for.
-/
structure Settled (graph : StarGraph) (table : StarTable) (before : List ValueId) : Prop where
  complete : ∀ c entry, table c = some entry → ∃ list, entry = .done list ∧
    graph.Complete table c list
  asked : ∀ c, table c ≠ none → ∃ q ∈ before, graph.Reaches q c

/-- What the list of a module owes it to hold, after some questions: along imports that do not lead
back, from the module or from a module that no question before leads to. -/
def Owed (graph : StarGraph) (before : List ValueId) (m x : ValueId) : Prop :=
  ∃ y z, graph.Reaches m y ∧ (y = m ∨ ∀ q ∈ before, ¬ graph.Reaches q y) ∧
    Relation.ReflTransGen graph.OneWay y z ∧ (z = x ∨ graph.Imports z x)

/-- A list of a module that holds no module twice, only what the module leads to, and what it owes
to hold. -/
structure Serves (graph : StarGraph) (before : List ValueId) (m : ValueId) (list : List ValueId) :
    Prop where
  nodup : list.Nodup
  self : m ∉ list
  reaches : ∀ x ∈ list, graph.Reaches m x
  owed : ∀ x, x ≠ m → graph.Owed before m x → x ∈ list

namespace Settled

variable {before : List ValueId} {result : List ValueId × StarTable}
  (h : graph.Settled table before)

include h

theorem ready (m : ValueId) : graph.Ready table m := by
  intro c entry hentry
  obtain ⟨list, rfl, hcomplete⟩ := h.complete c entry hentry
  exact hcomplete

theorem of_outcome (hout : graph.Outcome table m result) :
    graph.Settled result.2 (before ++ [m]) := by
  refine ⟨fun c entry hentry => ?_, fun c hc => ?_⟩
  · cases hold : table c with
    | none =>
      rcases hout.new c hold with hnone | ⟨list, hlist, hcomplete, -⟩
      · cases hnone.symm.trans hentry
      · cases hlist.symm.trans hentry
        exact ⟨list, rfl, hcomplete⟩
    | some old =>
      cases (hout.kept c old hold).symm.trans hentry
      obtain ⟨list, rfl, hcomplete⟩ := h.complete c entry hold
      exact ⟨list, rfl, hcomplete.mono (.of_kept hout.kept)⟩
  · cases hold : table c with
    | none =>
      rcases hout.new c hold with hnone | ⟨-, -, -, hreaches, -⟩
      · exact absurd hnone hc
      · exact ⟨m, by simp, hreaches⟩
    | some old =>
      obtain ⟨q, hq, hreaches⟩ := h.asked c (by simp [hold])
      exact ⟨q, mem_append_left _ hq, hreaches⟩

theorem followed (hy : graph y = none ∨ table y = some (.done list)) (hx : graph.Imports y x) :
    x = y ∨ graph.Followed table y list x := by
  rcases hy with hnone | hdone
  · exact absurd hnone hx.ne_none
  · obtain ⟨_, hlist, hcomplete⟩ := h.complete y _ hdone
    cases hlist
    exact hcomplete.followed x hx

/-- Lists are handed on along imports that do not lead back. -/
theorem mem_of_oneWay {z : ValueId} (hz : Relation.ReflTransGen graph.OneWay y z)
    (hy : graph y = none ∨ table y = some (.done list)) :
    (z = y ∨ z ∈ list) ∧ ∀ x, graph.Imports z x → x = y ∨ x ∈ list := by
  induction hz using Relation.ReflTransGen.head_induction_on generalizing list with
  | refl => exact ⟨Or.inl rfl, fun x hx => (h.followed hy hx).imp_right And.left⟩
  | @head y b hstep _ ih =>
    obtain ⟨himports, hback⟩ := hstep
    have hne : b ≠ y := by
      rintro rfl
      exact hback .refl
    obtain ⟨hb, hhandled⟩ := (h.followed hy himports).resolve_left hne
    -- The list of the next module is complete, and all of it is in the list.
    obtain ⟨more, hmore, hsub⟩ :
        ∃ more, (graph b = none ∨ table b = some (.done more)) ∧ ∀ x ∈ more, x = y ∨ x ∈ list := by
      rcases hhandled with hnone | ⟨more, hmore, hsub⟩ | ⟨-, hreaches⟩
      · exact ⟨[], Or.inl hnone, by simp⟩
      · exact ⟨more, Or.inr hmore, hsub⟩
      · exact absurd hreaches hback
    have htake (x : ValueId) (hx : x = b ∨ x ∈ more) : x = y ∨ x ∈ list := by
      rcases hx with rfl | hx
      · exact Or.inr hb
      · exact hsub x hx
    obtain ⟨hz, hnext⟩ := ih hmore
    exact ⟨htake z hz, fun x hx => htake x (hnext x hx)⟩

/-- The answer holds every module that no question before leads to, and all of its list. -/
theorem mem_of_new (hout : graph.Outcome table m result)
    (hy : graph.Reaches m y) (hnew : ∀ q ∈ before, ¬ graph.Reaches q y) :
    ∃ list, (graph y = none ∨ result.2 y = some (.done list)) ∧ ∀ x, x = y ∨ x ∈ list → x = m ∨
      x ∈ result.1 := by
  have hnone {y : ValueId} (hnew : ∀ q ∈ before, ¬ graph.Reaches q y) : table y = none := by
    by_contra hasked
    obtain ⟨q, hq, hreaches⟩ := h.asked y hasked
    exact hnew q hq hreaches
  induction hy with
  | refl =>
    refine ⟨result.1, ?_, fun x hx => hx⟩
    rcases hout.answer with ⟨hsource, -⟩ | hdone | hrunning
    · exact Or.inl hsource
    · exact Or.inr hdone
    · cases (hnone hnew).symm.trans hrunning
  | @tail a y _ hstep ih =>
    obtain ⟨list, ha, hall⟩ := ih fun q hq hreaches => hnew q hq (hreaches.tail hstep)
    rcases (h.of_outcome hout).followed ha hstep with rfl | ⟨hy, hhandled⟩
    · exact ⟨list, ha, hall⟩
    · have hmem := hall y (Or.inr hy)
      cases hsource : graph y with
      | none => exact ⟨[], Or.inl rfl, by simpa using hmem⟩
      | some targets =>
        have hasked : result.2 y ≠ none := by
          rcases hhandled with hnone | ⟨more, hmore, -⟩ | ⟨hasked, -⟩
          · cases hsource.symm.trans hnone
          · simp [hmore]
          · exact hasked
        obtain ⟨more, hmore, -, -, -, hsub⟩ := (hout.new y (hnone hnew)).resolve_left hasked
        refine ⟨more, Or.inr hmore, fun x hx => ?_⟩
        rcases hx with rfl | hx
        · exact hmem
        · exact hsub x hx

theorem serves (hout : graph.Outcome table m result) : graph.Serves before m result.1 := by
  have hsettled := h.of_outcome hout
  have hself : graph m = none ∧ result.1 = [] ∨
      graph.Complete result.2 m result.1 ∧ result.2 m = some (.done result.1) := by
    rcases hout.answer with hnone | hdone | hrunning
    · exact Or.inl hnone
    · obtain ⟨_, hlist, hcomplete⟩ := hsettled.complete m _ hdone
      cases hlist
      exact Or.inr ⟨hcomplete, hdone⟩
    · obtain ⟨_, hlist, -⟩ := h.complete m _ hrunning
      cases hlist
  refine ⟨?_, ?_, hout.reaches (h.ready m), ?_⟩
  · rcases hself with ⟨-, hnil⟩ | ⟨hcomplete, -⟩
    · rw [hnil]
      exact nodup_nil
    · exact hcomplete.nodup
  · rcases hself with ⟨-, hnil⟩ | ⟨hcomplete, -⟩
    · rw [hnil]
      exact not_mem_nil
    · exact hcomplete.self
  · rintro x hx ⟨y, z, hy, hfrom, hz, hzx⟩
    obtain ⟨list, hlist, hall⟩ : ∃ list, (graph y = none ∨ result.2 y = some (.done list)) ∧
        ∀ x, x = y ∨ x ∈ list → x = m ∨ x ∈ result.1 := by
      rcases hfrom with rfl | hnew
      · exact ⟨result.1, hself.imp And.left And.right, fun x hx => hx⟩
      · exact h.mem_of_new hout hy hnew
    obtain ⟨hz, hnext⟩ := hsettled.mem_of_oneWay hz hlist
    refine (hall x ?_).resolve_left hx
    rcases hzx with rfl | hzx
    · exact hz
    · exact hnext x hzx

end Settled

theorem settled_empty : graph.Settled (fun _ => none) [] := ⟨by simp, by simp⟩

theorem length_collectAll (depth : Nat) (table : StarTable) (queries : List ValueId) :
    (graph.collectAll depth table queries).1.length = queries.length := by
  induction queries generalizing table with
  | nil => rfl
  | cons m rest ih => simp [collectAll, ih]

/-- Every question in a row gets a list that serves, after the questions before it. -/
theorem Settled.serves_collectAll (hbound : ∀ m, (graph m).isSome = true → m < n) {depth : Nat}
    (hdepth : n < depth) {before : List ValueId} (h : graph.Settled table before)
    (queries : List ValueId) {i : Nat} (hm : queries[i]? = some m)
    (hlist : (graph.collectAll depth table queries).1[i]? = some list) :
    graph.Serves (before ++ queries.take i) m list := by
  induction queries generalizing table before i with
  | nil => cases hm
  | cons q rest ih =>
    have hout := outcome_collect hbound depth table q (h.ready q)
      ((card_unasked_le n table).trans_lt hdepth)
    cases i with
    | zero =>
      cases hm
      cases hlist
      rw [take_zero, append_nil]
      exact h.serves hout
    | succ i =>
      have hrest := ih (h.of_outcome hout) hm hlist
      rwa [append_assoc, singleton_append] at hrest

end StarGraph

end NameInference

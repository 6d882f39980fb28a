import NameInference.Proofs.Star.Graph

/-!
# Answers about star imports

The answers about star imports are the lists that are collected along the graph of the session, and
nothing but these answers is new in the session. So an answer has no module twice and holds only
what its module leads to. The first answer is complete, and so are all without cycles; inside a
cycle an answer may miss modules.
-/

namespace NameInference

open List Session StarGraph

variable {state : List ValueId × StarTable}

namespace Infer

variable {s t : Session} {m x : ValueId} {stmt : Place} {table : StarTable} {depth : Nat}

/-- What has been imported is imported again at once. -/
theorem exists_importModule {names : List Text} {set : ValueSet} (h : t.imported? names = some set)
    (ht : s.Holds table t) (depth : Nat) :
    ∃ u, importModule names (engine (depth + 1)) t = (.ok set, u) ∧ s.Holds table u := by
  unfold Session.imported? at h
  rw [importModule]
  split at h
  · next hempty =>
    cases h
    exact ⟨t, by rw [if_pos hempty]; rfl, ht⟩
  · next hempty =>
    split at h
    · next set' hdone =>
      cases h
      exact ⟨_, by rw [if_neg hempty]; exact MemoSlot.answer_of_done hdone,
        ht.same fun _ => Memo.find?_hit⟩
    · cases h

/-- A `from` import imports the module that it names, if it names one. -/
theorem importFromModule_run (m : ValueId) (stmt : Place) (calls : Calls) (t : Session) :
    importFromModule m stmt calls t =
      (t.fromNames? m stmt).elim (.ok ∅, t) fun names => importModule names calls t := by
  rw [importFromModule, Session.fromNames?]
  obtain ⟨names, level⟩ := fromPart stmt
  by_cases hlevel : (level == 0) = true
  · simp only [if_pos hlevel]
    rfl
  · have hinspect : inspect (·.relativeNames? m level names) calls t =
      (.ok (t.relativeNames? m level names), t) := rfl
    simp only [if_neg hlevel]
    rw [bind_of_ok hinspect]
    cases t.relativeNames? m level names <;> rfl

/-- A star import leads to its targets. -/
theorem exists_importFromModule (hs : t.Resolved) (hm : t.hasSource m = true)
    (hstmt : stmt ∈ t.starStatements m) (ht : s.Holds table t) (depth : Nat) :
    ∃ set u, importFromModule m stmt (engine (depth + 1)) t = (.ok set, u) ∧
      set.ids = t.starTargets m stmt ∧ s.Holds table u := by
  rw [importFromModule_run, Session.starTargets]
  cases hnames : t.fromNames? m stmt with
  | none => exact ⟨∅, t, rfl, rfl, ht⟩
  | some names =>
    obtain ⟨set, hset⟩ := hs m hm stmt hstmt names hnames
    obtain ⟨u, hrun, hu⟩ := exists_importModule hset ht depth
    exact ⟨set, u, hrun, by simp [hset], hu⟩

/-- Gives a piece to the growing list of a module. -/
def growStars (m : ValueId) (f : List ValueId → List ValueId) : Infer Unit :=
  fun _ => Session.memoSlot.grow (.starModules m) f

/-- A growing list grows in the table. -/
theorem exists_growStars (ht : s.Holds (StarGraph.view m state) t)
    (f : List ValueId → List ValueId) (calls : Calls) :
    ∃ u, growStars m f calls t = (.ok (), u) ∧ s.Holds (StarGraph.view m (f state.1, state.2)) u :=
  ⟨_, rfl, ht.update_view (Memo.find?_grow_self ht.entry) fun _ hq => Memo.find?_grow (Or.inl hq)⟩

/-- Appends a module to the growing list of another one. -/
def appendStar (m x : ValueId) : Infer (ForInStep PUnit) :=
  if x != m then do
    growStars m (appendNew · x)
    pure (.yield PUnit.unit)
  else pure (.yield PUnit.unit)

/-- The modules of a list are appended one after the other. -/
theorem exists_appendStars (ht : s.Holds (StarGraph.view m state) t)
    (nested : List ValueId) (calls : Calls) :
    ∃ u, (forIn nested PUnit.unit fun x _ => appendStar m x) calls t = (.ok ⟨⟩, u) ∧
      s.Holds (StarGraph.view m ((nested.filter (· != m)).foldl appendNew state.1, state.2)) u := by
  refine exists_of_forIn (I := fun done u =>
    s.Holds (StarGraph.view m ((done.filter (· != m)).foldl appendNew state.1, state.2)) u) ?_ ht
  intro done x rest u _ hu
  rw [filter_append, foldl_append, appendStar]
  by_cases hx : (x != m) = true
  · obtain ⟨v, hrun, hv⟩ := exists_growStars hu (appendNew · x) calls
    refine ⟨v, ?_, ?_⟩
    · rw [if_pos hx, bind_of_ok hrun]
      rfl
    · rw [filter_singleton, hx]
      exact hv
  · refine ⟨u, by rw [if_neg hx]; rfl, ?_⟩
    rw [filter_singleton, Bool.eq_false_iff.mpr hx]
    exact hu

/-- The round of the computation that follows one target. -/
def followStar (m x : ValueId) : Infer (ForInStep PUnit) :=
  if x != m then do
    growStars m (appendNew · x)
    let nested ← starModules x
    forIn nested PUnit.unit fun y _ => appendStar m y
    pure (.yield PUnit.unit)
  else pure (.yield PUnit.unit)

/-- The round of the computation that follows one star import. -/
def followImport (m : ValueId) (stmt : Place) : Infer (ForInStep PUnit) := do
  let set ← importFromModule m stmt
  forIn set.ids PUnit.unit fun x _ => followStar m x
  pure (.yield PUnit.unit)

theorem computeStarModules_eq (m : ValueId) : computeStarModules m (growStars m) = (do
    let stmts ← inspect (·.starStatements m)
    forIn stmts PUnit.unit fun stmt _ => followImport m stmt
    pure ()) := rfl

theorem starModules_run (h : s.hasSource m = true) : starModules m (engine (depth + 1)) s =
    Session.memoSlot.generate Failure.isRecoverable (.starModules m) []
      (fun grow => computeStarModules m (fun f _ => grow f) (engine depth)) s := by
  have hsource : (s.values.module? m).any (·.tree.isSome) = true := h
  rw [starModules, bind_of_ok (query_run _), if_pos hsource]
  rfl

/-- A question about star imports is answered by what is collected along the graph, as far as it
goes on to fewer modules than the depth allows. -/
def Collects (s : Session) (depth : Nat) : Prop :=
  ∀ {t : Session} {table : StarTable} {m : ValueId}, s.Holds table t → s.starGraph.Ready table m →
    (StarGraph.unasked s.values.size table).card < depth →
    ∃ u, starModules m (engine depth) t = (.ok (s.starGraph.collect depth table m).1, u) ∧
      s.Holds (s.starGraph.collect depth table m).2 u

section

variable (hcollects : Collects s depth) (hready : s.starGraph.Ready table m)
  (hnone : table m = none) (hdepth : (StarGraph.unasked s.values.size table).card ≤ depth)

include hcollects hready hnone hdepth

/-- Following a target is following it along the graph. -/
theorem exists_followStar {seen : List ValueId}
    (h : s.starGraph.Growing table m seen state) (hx : s.starGraph.Imports m x)
    (ht : s.Holds (StarGraph.view m state) t) :
    ∃ u, followStar m x (engine depth) t = (.ok (.yield ⟨⟩), u) ∧
      s.Holds (StarGraph.view m (StarGraph.follow (s.starGraph.collect depth) m state x)) u := by
  rw [followStar, StarGraph.follow]
  by_cases hne : x = m
  · exact ⟨t, by rw [if_neg (by simpa using hne)]; rfl, by rwa [if_pos hne]⟩
  · rw [if_pos (by simpa using hne), if_neg hne]
    have happend := h.append hx hne
    have hm := lt_size_of_starGraph (Option.isSome_iff_ne_none.mpr hx.ne_none)
    obtain ⟨u, hgrow, hu⟩ := exists_growStars ht (appendNew · x) (engine depth)
    have hbelow := happend.ready hready hnone hx
    have hless := (happend.card_unasked_lt hnone hm).trans_le hdepth
    obtain ⟨v, hask, hv⟩ := hcollects hu hbelow hless
    -- The list that grows is as it was before the question about the target.
    have hout := s.outcome_collect depth _ x hbelow hless
    have hview : StarGraph.view m (appendNew state.1 x, _) = _ :=
      view_eq (hout.kept m _ (view_self m _))
    rw [← hview] at hv
    obtain ⟨w, happends, hw⟩ :=
      exists_appendStars hv (s.starGraph.collect depth _ x).1 (engine depth)
    refine ⟨w, ?_, hw⟩
    rw [bind_of_ok hgrow, bind_of_ok hask, bind_of_ok happends]
    rfl

/-- So it is for targets one after the other. -/
theorem exists_followStars {seen targets : List ValueId}
    (htargets : ∀ x ∈ seen ++ targets, s.starGraph.Imports m x)
    (ht : s.Holds
      (StarGraph.view m (seen.foldl (StarGraph.follow (s.starGraph.collect depth) m) ([], table)))
    t) : ∃ u, (forIn targets PUnit.unit fun x _ => followStar m x) (engine depth) t = (.ok ⟨⟩, u) ∧
      s.Holds (StarGraph.view m
        ((seen ++ targets).foldl (StarGraph.follow (s.starGraph.collect depth) m) ([], table)))
          u := by
  refine exists_of_forIn (I := fun done u => s.Holds (StarGraph.view m
    ((seen ++ done).foldl (StarGraph.follow (s.starGraph.collect depth) m) ([], table))) u) ?_
      (by simpa using ht)
  intro done x rest u hsplit hu
  have hx := htargets x (by simp [hsplit])
  have hm := lt_size_of_starGraph (Option.isSome_iff_ne_none.mpr hx.ne_none)
  have hgrowing : s.starGraph.Growing table m (seen ++ done) _ :=
    .foldl_follow (s.outcome_collect depth) hready hnone hm hdepth fun y hy => htargets y (by
      rw [hsplit, ← append_assoc]
      exact mem_append_left _ hy)
  obtain ⟨v, hrun, hv⟩ := exists_followStar hcollects hready hnone hdepth hgrowing hx hu
  refine ⟨v, hrun, ?_⟩
  rw [← append_assoc, foldl_append]
  exact hv

/-- The list of a module with source is collected along the graph. -/
theorem exists_computeStarModules (hs : s.Resolved) (hm : s.hasSource m = true)
    (ht : s.Holds (StarGraph.view m ([], table)) t) :
    ∃ u, computeStarModules m (growStars m) (engine depth) t = (.ok (), u) ∧
      s.Holds (StarGraph.view m (((s.starStatements m).flatMap (s.starTargets m)).foldl
        (StarGraph.follow (s.starGraph.collect depth) m) ([], table))) u := by
  have hgraph : s.starGraph m = some ((s.starStatements m).flatMap (s.starTargets m)) := if_pos hm
  -- What is imported is looked up one level further down, so there must be one.
  have hmem : m ∈ StarGraph.unasked s.values.size table :=
    mem_unasked.mpr ⟨lt_size_of_starGraph (by rw [hgraph]; rfl), hnone⟩
  obtain ⟨less, rfl⟩ :=
    Nat.exists_eq_succ_of_ne_zero ((Finset.card_pos.mpr ⟨m, hmem⟩).trans_le hdepth).ne'
  have hloop : ∃ u, (forIn (s.starStatements m) PUnit.unit fun stmt _ => followImport m stmt)
    (engine (less + 1)) t =
      (.ok ⟨⟩, u) ∧
      s.Holds (StarGraph.view m (((s.starStatements m).flatMap (s.starTargets m)).foldl
        (StarGraph.follow (s.starGraph.collect (less + 1)) m) ([], table))) u := by
    refine exists_of_forIn
      (I := fun done u => s.Holds (StarGraph.view m ((done.flatMap (s.starTargets m)).foldl
        (StarGraph.follow (s.starGraph.collect (less + 1)) m) ([], table))) u) ?_ ht
    intro done stmt rest u hsplit hu
    have hstmt : stmt ∈ u.starStatements m := by simp [hu.starStatements_eq, hsplit]
    obtain ⟨set, v, himport, hset, hv⟩ :=
      exists_importFromModule (hu.resolved hs) ((hu.hasSource_eq m).trans hm) hstmt hu less
    rw [hu.starTargets_eq] at hset
    have htargets : ∀ x ∈ done.flatMap (s.starTargets m) ++ s.starTargets m stmt,
      s.starGraph.Imports m x :=
      fun x hx => ⟨_, hgraph, by
        rw [hsplit, flatMap_append, flatMap_cons, ← append_assoc]
        exact mem_append_left _ hx⟩
    obtain ⟨w, hfollow, hw⟩ := exists_followStars hcollects hready hnone hdepth htargets hv
    refine ⟨w, ?_, by simpa using hw⟩
    rw [followImport, bind_of_ok himport, hset, bind_of_ok hfollow]
    rfl
  obtain ⟨u, hrun, hu⟩ := hloop
  have hinspect : inspect (·.starStatements m) (engine (less + 1)) t =
      (.ok (s.starStatements m), t) := by
    rw [← ht.starStatements_eq]
    rfl
  refine ⟨u, ?_, hu⟩
  rw [computeStarModules_eq, bind_of_ok hinspect, bind_of_ok hrun]
  rfl

end

/-- Every question about star imports is answered by what is collected along the graph. -/
theorem collects (hs : s.Resolved) (depth : Nat) : Collects s depth := by
  induction depth with
  | zero => exact fun _ _ hdepth => absurd hdepth (Nat.not_lt_zero _)
  | succ depth ih =>
    intro t table m ht hready hdepth
    rw [StarGraph.collect]
    cases hm : s.hasSource m with
    | false =>
      have hsource : ¬ (t.values.module? m).any (·.tree.isSome) = true := by
        rw [ht.values_eq]
        exact Bool.eq_false_iff.mp hm
      have hgraph : s.starGraph m = none := if_neg (by simp [hm])
      refine ⟨t, ?_, by rwa [hgraph]⟩
      rw [starModules, bind_of_ok (query_run _), if_neg hsource, hgraph]
      rfl
    | true =>
      have hgraph : s.starGraph m = some ((s.starStatements m).flatMap (s.starTargets m)) :=
        if_pos hm
      rw [starModules_run ((ht.hasSource_eq m).trans hm), hgraph]
      cases hentry : table m with
      | none =>
        have hnone : t.memo.find? (.starModules m) = none := (congrFun ht.table_eq m).trans hentry
        have hstart : s.Holds (StarGraph.view m ([], table))
            (Session.memoSlot.update (·.start (.starModules m) (some [])) t) :=
          ht.update Memo.find?_start_self fun q hq => Memo.find?_start_of_ne hq
        obtain ⟨u, hcompute, hu⟩ :=
          exists_computeStarModules ih hready hentry (Nat.le_of_lt_succ hdepth) hs hm hstart
        exact ⟨_, MemoSlot.generate_of_ok hnone hcompute hu.sofar,
          hu.update_view Memo.find?_finish_self fun q hq => Memo.find?_finish_of_ne hq⟩
      | some entry =>
        have hfound : t.memo.find? (.starModules m) = some entry :=
          (congrFun ht.table_eq m).trans hentry
        cases entry with
        | done list => exact ⟨_, MemoSlot.generate_of_done hfound, ht.same fun _ => Memo.find?_hit⟩
        | running sofar =>
          exact ⟨_, MemoSlot.generate_of_running hfound, ht.same fun _ => Memo.find?_trip⟩

/-- So it is for questions one after the other. -/
theorem exists_mapM_starModules (hs : s.Resolved) (hdepth : s.values.size < depth)
    {before : List ValueId} (hsettled : s.starGraph.Settled table before) (ht : s.Holds table t)
    (queries : List ValueId) :
    ∃ u, queries.mapM starModules (engine depth) t =
      (.ok (s.starGraph.collectAll depth table queries).1, u) := by
  induction queries generalizing table before t with
  | nil => exact ⟨t, rfl⟩
  | cons m queries ih =>
    have hcard := (card_unasked_le s.values.size table).trans_lt hdepth
    obtain ⟨u, hrun, hu⟩ := collects hs depth ht (hsettled.ready m) hcard
    obtain ⟨v, hrest⟩ :=
      ih (hsettled.of_outcome (s.outcome_collect depth table m (hsettled.ready m) hcard)) hu
    refine ⟨v, ?_⟩
    rw [mapM_cons, bind_of_ok hrun, bind_of_ok hrest]
    rfl

/-- Where nothing has been asked about star imports, questions are answered by what is collected
along the graph. -/
theorem exists_mapM_starModules_of_none (hs : s.Resolved)
    (hnone : ∀ m, s.memo.find? (.starModules m) = none) (hdepth : s.values.size < depth)
    (queries : List ValueId) :
    ∃ t, queries.mapM starModules (engine depth) s =
      (.ok (s.starGraph.collectAll depth (fun _ => none) queries).1, t) :=
  exists_mapM_starModules hs hdepth settled_empty ⟨.refl s, funext hnone⟩ queries

end Infer

/-- In a session that has loaded what its modules star-import, with cycles or without, questions
about star imports one after the other are all answered. An answer has no module twice, does not
hold the module itself and holds only modules that it leads to. It holds what can be reached from
the module over imports that do not lead back, and what is imported from there; the same holds from
every module that it leads to and no question before does. So the first answer holds all that can be
reached, and without cycles every answer does. -/
theorem Infer.mapM_starModules_serves {s : Session} (hs : s.Resolved)
    (hnone : ∀ m, s.memo.find? (.starModules m) = none) {depth : Nat}
    (hdepth : s.values.size < depth) (queries : List ValueId) :
    ∃ answers t, queries.mapM starModules (engine depth) s = (.ok answers, t) ∧
      answers.length = queries.length ∧
      ∀ i m list, queries[i]? = some m → answers[i]? = some list →
        s.starGraph.Serves (queries.take i) m list := by
  obtain ⟨t, hrun⟩ := exists_mapM_starModules_of_none hs hnone hdepth queries
  refine ⟨_, t, hrun, length_collectAll _ _ _, fun i m list hm hlist => ?_⟩
  exact settled_empty.serves_collectAll (fun _ => lt_size_of_starGraph) hdepth queries hm hlist

theorem Infer.mapM_starModules_serves_cycleSample :
    ∃ modules, (∀ i < 3, Module.ofSource (.cycleSample i) = .ok (modules i)) ∧
      (Session.ofThree modules).Resolved ∧ (Session.ofThree modules).starGraph = .cycleSample ∧
      ∃ answers t, [1, 0, 2, 1].mapM starModules (engine engineDepth) (.ofThree modules) =
        (.ok answers, t) ∧
        answers.length = 4 ∧ ∀ i m list, [1, 0, 2, 1][i]? = some m → answers[i]? = some list →
          StarGraph.cycleSample.Serves ([1, 0, 2, 1].take i) m list := by
  obtain ⟨modules, hread, hresolved, hgraph⟩ := exists_ofThree_cycleSample
  obtain ⟨answers, t, hrun, hlength, hserves⟩ := mapM_starModules_serves hresolved
    (find?_ofThree modules).2.2.2 (by decide : Values.cycleModules.size < engineDepth) [1, 0, 2, 1]
  rw [hgraph] at hserves
  exact ⟨modules, hread, hresolved, hgraph, answers, t, hrun, hlength, hserves⟩

/-- If the first of the three modules is asked for before the second, the answer for the second
lacks the third, which it leads to. -/
theorem Infer.mapM_starModules_misses_cycleSample :
    ∃ modules, (∀ i < 3, Module.ofSource (.cycleSample i) = .ok (modules i)) ∧
      (Session.ofThree modules).Resolved ∧ (Session.ofThree modules).starGraph.Reaches 1 2 ∧
      ∃ t, [0, 1].mapM starModules (engine engineDepth) (.ofThree modules) =
        (.ok [[1, 2], [0]], t) := by
  obtain ⟨modules, hread, hresolved, hgraph⟩ := exists_ofThree_cycleSample
  obtain ⟨t, hrun⟩ := exists_mapM_starModules_of_none hresolved (find?_ofThree modules).2.2.2
    (by decide : Values.cycleModules.size < engineDepth) [0, 1]
  have hanswers : (StarGraph.cycleSample.collectAll engineDepth (fun _ => none) [0, 1]).1 =
    [[1, 2], [0]] := rfl
  rw [hgraph, hanswers] at hrun
  have hback : StarGraph.cycleSample.Imports 1 0 := ⟨[0], rfl, by decide⟩
  have hon : StarGraph.cycleSample.Imports 0 2 := ⟨[1, 2], rfl, by decide⟩
  exact ⟨modules, hread, hresolved, hgraph ▸ (Relation.ReflTransGen.single hback).tail hon, t, hrun⟩

end NameInference

import Mathlib.Logic.Function.Basic
import NameInference.Proofs.Class.Collect

/-!
# Orders over known bases

Where the bases of a class and of all classes above it are recorded and lead in no cycle, its order
is put together from the whole orders of the bases, and is the whole depth-first traversal with
every class where it occurs first. This needs the bases beforehand: an order that is asked for while
bases are found for another one is cut short where it meets that one, and stays so.
-/

namespace NameInference

open List

/-- The depth-first traversal of some classes from left to right: a class, all that is above it,
then the others. There is one if the classes above each class are known and lead in no cycle. -/
inductive Visits (above : ValueId → Option (List ValueId)) :
    List ValueId → List ValueId → Prop where
  | nil : Visits above [] []
  | cons {cls : ValueId} {bases others inner outer : List ValueId} (hbases : above cls = some bases)
      (hinner : Visits above bases inner) (houter : Visits above others outer) :
      Visits above (cls :: others) (cls :: (inner ++ outer))

namespace Visits

variable {above : ValueId → Option (List ValueId)} {cls : ValueId}
  {bases classes more visits others : List ValueId}

theorem single (hbases : above cls = some bases) (h : Visits above bases visits) :
    Visits above [cls] (cls :: visits) := by
  simpa using Visits.cons hbases h .nil

theorem append (h : Visits above classes visits) (h' : Visits above more others) :
    Visits above (classes ++ more) (visits ++ others) := by
  induction h with
  | nil => exact h'
  | cons hbases hinner _ _ ih => simpa using Visits.cons hbases hinner ih

/-- There is one traversal at most. -/
theorem unique (h : Visits above classes visits) (h' : Visits above classes others) :
    visits = others := by
  induction h generalizing others with
  | nil =>
    cases h'
    rfl
  | cons hbases _ _ ihinner ihouter =>
    cases h' with
    | cons hbases' hinner houter =>
      cases hbases.symm.trans hbases'
      rw [ihinner hinner, ihouter houter]

/-- A traversal passes through each class. -/
theorem exists_of_mem (h : Visits above classes visits) (hcls : cls ∈ classes) :
    ∃ part, Visits above [cls] part ∧ part.length ≤ visits.length := by
  induction h with
  | nil => cases hcls
  | cons hbases hinner _ _ ih =>
    rcases mem_cons.mp hcls with rfl | hcls
    · exact ⟨_, .single hbases hinner, by simp⟩
    · obtain ⟨part, hpart, hle⟩ := ih hcls
      exact ⟨part, hpart, by rw [length_cons, length_append]; omega⟩

/-- The traversal of a class goes through its bases. -/
theorem exists_of_single (h : Visits above [cls] visits) :
    ∃ bases inner, above cls = some bases ∧ Visits above bases inner ∧ visits = cls :: inner := by
  cases h with
  | cons hbases hinner houter =>
    cases houter
    exact ⟨_, _, hbases, hinner, by rw [append_nil]⟩

end Visits

namespace Session

variable {s t : Session} {cls base : ValueId} {list visits : List ValueId}
  {growing : ValueId → Option (List ValueId)}

/-- The recorded bases of a plain class. -/
def bases? (s : Session) (cls : ValueId) : Option (List ValueSet) :=
  match s.memo.find? (.bases cls) with
  | some (.done sets) => some sets
  | _ => none

/-- The classes among the recorded bases of a class: base after base, and those of one base in
ascending order. -/
def baseClasses? (s : Session) (cls : ValueId) : Option (List ValueId) :=
  if (s.values.class? (s.values.plainClass cls)).isSome then
    (s.bases? (s.values.plainClass cls)).map fun sets =>
      (sets.flatMap (·.ids)).filter s.values.isClass
  else some []

theorem find?_of_bases? {sets : List ValueSet} (h : s.bases? cls = some sets) :
    (memoSlot.read s).find? (.bases cls) = some (.done sets) := by
  unfold bases? at h
  split at h
  · next hdone =>
    cases h
    exact hdone
  · cases h

theorem isClass_of_mem_baseClasses? {bases : List ValueId} (h : s.baseClasses? cls = some bases)
    (hbase : base ∈ bases) :
    s.values.isClass base = true := by
  unfold baseClasses? at h
  split at h
  · obtain ⟨sets, -, rfl⟩ := Option.map_eq_some_iff.mp h
    exact (mem_filter.mp hbase).2
  · cases h
    cases hbase

/-- The whole order of a class is recorded. -/
def IsWhole (s : Session) (cls : ValueId) (entry : MemoEntry (List ValueId)) : Prop :=
  ∃ visits, Visits s.baseClasses? [cls] visits ∧ entry = .done visits.eraseDups

/-- Every order that is recorded is whole, and none is being collected. -/
def Whole (s : Session) : Prop :=
  ∀ c entry, s.memo.find? (.order c) = some entry → s.IsWhole c entry

/-- Since the first session only orders are new. Some are growing, the others are whole. -/
structure Collecting (s : Session) (growing : ValueId → Option (List ValueId)) (t : Session) :
    Prop where
  values_eq : t.values = s.values
  find?_eq : ∀ q, (∀ c, q ≠ .order c) → t.memo.find? q = s.memo.find? q
  entry : ∀ c list, growing c = some list → t.memo.find? (.order c) = some (.running (some list))
  whole : ∀ c entry, growing c = none → t.memo.find? (.order c) = some entry → s.IsWhole c entry

namespace Collecting

theorem baseClasses?_eq (h : s.Collecting growing t) : t.baseClasses? = s.baseClasses? := by
  funext c
  have hbases (plain : ValueId) : t.bases? plain = s.bases? plain := by
    rw [bases?, bases?, h.find?_eq _ (by simp)]
  rw [baseClasses?, baseClasses?, h.values_eq, hbases]

theorem whole_of_none (h : s.Collecting (fun _ => none) t) : t.Whole := by
  intro c entry hentry
  rw [IsWhole, h.baseClasses?_eq]
  exact h.whole c entry rfl hentry

/-- A change to the order of one class. -/
theorem update (h : s.Collecting growing t) {f : Memo Question Answer → Memo Question Answer}
    (hothers : ∀ q, q ≠ .order cls → (f t.memo).find? q = t.memo.find? q)
    (now : Option (List ValueId))
    (hgrowing : ∀ list, now = some list →
      (f t.memo).find? (.order cls) = some (.running (some list)))
    (hwhole : now = none → ∀ entry, (f t.memo).find? (.order cls) = some entry →
      s.IsWhole cls entry) :
    s.Collecting (Function.update growing cls now) (memoSlot.update f t) where
  values_eq := h.values_eq
  find?_eq q hq := (hothers q (hq cls)).trans (h.find?_eq q hq)
  entry c list hc := by
    by_cases hsame : c = cls
    · subst hsame
      exact hgrowing list (by simpa using hc)
    · rw [Function.update_of_ne hsame] at hc
      exact (hothers _ (by simpa using hsame)).trans (h.entry c list hc)
  whole c entry hc hentry := by
    by_cases hsame : c = cls
    · subst hsame
      exact hwhole (by simpa using hc) entry hentry
    · rw [Function.update_of_ne hsame] at hc
      exact h.whole c entry hc ((hothers _ (by simpa using hsame)).symm.trans hentry)

theorem hit (h : s.Collecting growing t) : s.Collecting growing (memoSlot.update (·.hit) t) :=
  ⟨h.values_eq, h.find?_eq, h.entry, h.whole⟩

theorem beginOrder (h : s.Collecting growing t) (cls : ValueId) :
    s.Collecting (Function.update growing cls (some [cls])) (t.beginOrder cls) :=
  h.update (fun _ => find?_beginOrder_of_ne) _ (fun _ hlist => by
    cases hlist
    exact t.find?_beginOrder_self cls) nofun

theorem grow (h : s.Collecting (Function.update growing cls (some list)) t)
    (f : List ValueId → List ValueId) :
    s.Collecting (Function.update growing cls (some (f list)))
      (memoSlot.update (·.grow (.order cls) f) t) := by
  have hentry := h.entry cls list (Function.update_self ..)
  have hgrown := h.update (f := (·.grow (.order cls) f)) (fun _ hq => Memo.find?_grow (.inl hq))
    (some (f list)) (fun _ hlist => by
      cases hlist
      exact Memo.find?_grow_self hentry) nofun
  rwa [Function.update_idem] at hgrown

/-- A whole order is recorded. -/
theorem finish (h : s.Collecting (Function.update growing cls (some list)) t)
    (hcls : growing cls = none) (hvisits : Visits s.baseClasses? [cls] visits)
    (hlist : list = visits.eraseDups) :
    s.Collecting growing (memoSlot.update (·.finish (.order cls) list) t) := by
  have hfinished := h.update (f := (·.finish (.order cls) list))
    (fun _ hq => Memo.find?_finish_of_ne hq) none nofun fun _ entry hentry =>
      ⟨visits, hvisits, hlist ▸ (Option.some.inj (Memo.find?_finish_self.symm.trans hentry)).symm⟩
  rwa [Function.update_idem, ← hcls, Function.update_eq_self] at hfinished

end Collecting

end Session

namespace Infer

open Session

variable {s t : Session} {cls base : ValueId} {bases list visits : List ValueId} {depth : Nat}
  {growing : ValueId → Option (List ValueId)}

/-- The members of an order are appended one after the other. -/
theorem exists_appendNew (h : s.Collecting (Function.update growing cls (some list)) t)
    (order : List ValueId) (calls : Calls) :
    ∃ u, (forIn order PUnit.unit fun member _ => do
        growOrder cls (appendNew · member)
        pure (.yield PUnit.unit) : Infer PUnit) calls t = (.ok ⟨⟩, u) ∧
      s.Collecting (Function.update growing cls (some (order.foldl appendNew list))) u := by
  refine exists_of_forIn (I := fun done u => s.Collecting
    (Function.update growing cls (some (done.foldl appendNew list))) u) ?_ h
  intro done member rest u _ hu
  refine ⟨_, rfl, ?_⟩
  rw [foldl_append]
  exact hu.grow (appendNew · member)

/-- Recorded bases are given at once. -/
theorem exists_bases (h : s.Collecting growing t) (hbases : s.baseClasses? cls = some bases)
    (depth : Nat) :
    ∃ sets u, Infer.bases cls (engine (depth + 1)) t = (.ok sets, u) ∧ s.Collecting growing u ∧
      classesIn sets (engine (depth + 1)) u = (.ok bases, u) := by
  rw [← h.baseClasses?_eq] at hbases
  unfold baseClasses? at hbases
  split at hbases
  · next hcls =>
    obtain ⟨sets, hsets, rfl⟩ := Option.map_eq_some_iff.mp hbases
    have hask : ask (.bases (t.values.plainClass cls)) (engine (depth + 1)) t = (.ok sets, _) :=
      MemoSlot.answer_of_done (find?_of_bases? hsets)
    refine ⟨sets, memoSlot.update (·.hit) t, ?_, h.hit, rfl⟩
    rw [Infer.bases, ofPlainClass, bind_of_ok (query_run _), bind_of_ok (query_run _),
      if_pos hcls, hask]
  · next hcls =>
    cases hbases
    refine ⟨[], t, ?_, h, rfl⟩
    rw [Infer.bases, ofPlainClass, bind_of_ok (query_run _), bind_of_ok (query_run _),
      if_neg hcls]
    rfl

/-- An order that takes less visits than the depth is whole, if those that are growing take more. -/
theorem exists_order (h : s.Collecting growing t) (hcls : s.values.isClass cls = true)
    (hvisits : Visits s.baseClasses? [cls] visits) (hdepth : visits.length < depth)
    (hlong : ∀ c, growing c ≠ none →
      ∀ longer, Visits s.baseClasses? [c] longer → visits.length < longer.length) :
    ∃ u, order cls (engine depth) t = (.ok visits.eraseDups, u) ∧ s.Collecting growing u := by
  induction depth generalizing t cls visits growing with
  | zero => exact absurd hdepth (Nat.not_lt_zero _)
  | succ depth ih =>
    have hask : (engine (depth + 1)).ask (.order cls) t = memoSlot.generate Failure.isRecoverable
        (.order cls) [] (fun grow => computeOrder cls (fun f _ => grow f) (engine depth)) t := rfl
    have hidle : growing cls = none := by
      by_contra hgrowing
      exact absurd (hlong cls hgrowing visits hvisits) (Nat.lt_irrefl _)
    rw [order_of_isClass (h.values_eq ▸ hcls), hask]
    cases hentry : t.memo.find? (.order cls) with
    | some entry =>
      obtain ⟨other, hother, rfl⟩ := h.whole cls entry hidle hentry
      rw [hother.unique hvisits] at hentry
      have hknown : (memoSlot.read t).find? (.order cls) = some (.done visits.eraseDups) := hentry
      exact ⟨_, MemoSlot.generate_of_done hknown, h.hit⟩
    | none =>
      obtain ⟨bases, inner, hbases, hinner, rfl⟩ := hvisits.exists_of_single
      rw [length_cons] at hdepth
      obtain ⟨less, rfl⟩ := Nat.exists_eq_add_one_of_ne_zero (Nat.ne_of_gt (by omega : 0 < depth))
      obtain ⟨sets, u, hgiven, hbegun, hclasses⟩ := exists_bases (h.beginOrder cls) hbases less
      -- The bases that are behind have been visited, and the list holds the first occurrences.
      have hloop : ∃ v, (forIn bases PUnit.unit fun base _ => do
            let order ← order base
            forIn order PUnit.unit fun member _ => do
              growOrder cls (appendNew · member)
              pure (.yield PUnit.unit)
            pure (.yield PUnit.unit) : Infer PUnit) (engine (less + 1)) u = (.ok ⟨⟩, v) ∧
          ∃ done, Visits s.baseClasses? bases done ∧
            s.Collecting (Function.update growing cls (some (cls :: done).eraseDups)) v := by
        refine exists_of_forIn (I := fun followed v => ∃ done, Visits s.baseClasses? followed done ∧
          s.Collecting (Function.update growing cls (some (cls :: done).eraseDups)) v) ?_
          ⟨[], .nil, hbegun⟩
        rintro followed base rest v hsplit ⟨done, hdone, hgrowing⟩
        have hbase : base ∈ bases := by simp [hsplit]
        obtain ⟨part, hpart, hle⟩ := hinner.exists_of_mem hbase
        -- The class takes more visits than each of its bases.
        have hlonger : ∀ c, Function.update growing cls (some (cls :: done).eraseDups) c ≠ none →
            ∀ longer, Visits s.baseClasses? [c] longer → part.length < longer.length := by
          intro c hc longer hothers
          by_cases hsame : c = cls
          · subst hsame
            rw [hothers.unique hvisits, length_cons]
            omega
          · rw [Function.update_of_ne hsame] at hc
            have hshort := hlong c hc longer hothers
            rw [length_cons] at hshort
            omega
        obtain ⟨w, horder, hgiven⟩ := ih hgrowing (isClass_of_mem_baseClasses? hbases hbase) hpart
          (by omega) hlonger
        obtain ⟨x, happend, hgrown⟩ := exists_appendNew hgiven part.eraseDups (engine (less + 1))
        refine ⟨x, by rw [bind_of_ok horder, bind_of_ok happend]; rfl, done ++ part,
          hdone.append hpart, ?_⟩
        rwa [foldl_appendNew_eraseDups, eraseDups_append_eraseDups, cons_append] at hgrown
      obtain ⟨v, hforIn, done, hdone, hgrowing⟩ := hloop
      obtain rfl := hdone.unique hinner
      have hcompute : computeOrder cls (growOrder cls) (engine (less + 1))
          (memoSlot.update (·.start (.order cls) (some [])) t) = (.ok (), v) := by
        rw [computeOrder_run, followBases, bind_of_ok hgiven, bind_of_ok hclasses,
          bind_of_ok hforIn]
        rfl
      have hsofar : (v.memo.sofar? (.order cls)).getD [] = (cls :: done).eraseDups := by
        rw [Memo.sofar?, hgrowing.entry cls _ (Function.update_self ..)]
        rfl
      have hnew : (memoSlot.read t).find? (.order cls) = none := hentry
      exact ⟨_, MemoSlot.generate_of_ok hnew hcompute hsofar, hgrowing.finish hidle hvisits rfl⟩

/-- If every order that is recorded is whole, and there is a depth-first traversal over the recorded
bases of each class, then questions about the orders of these classes one after the other all get
the first occurrences of the traversal, whatever was asked before, and every order that is recorded
then is whole again. -/
theorem mapM_order_preorder {s : Session} (hwhole : s.Whole) (queries : List ValueId)
    (visits : ValueId → List ValueId) {depth : Nat}
    (hvisits : ∀ cls ∈ queries, s.values.isClass cls = true ∧
      Visits s.baseClasses? [cls] (visits cls) ∧ (visits cls).length < depth) :
    ∃ t, queries.mapM order (engine depth) s =
      (.ok (queries.map fun cls => (visits cls).eraseDups), t) ∧ t.Whole := by
  suffices hlater : ∀ t, s.Collecting (fun _ => none) t → ∃ u, queries.mapM order (engine depth) t =
      (.ok (queries.map fun cls => (visits cls).eraseDups), u) ∧ u.Whole from
    hlater s ⟨rfl, fun _ _ => rfl, nofun, fun c entry _ => hwhole c entry⟩
  induction queries with
  | nil => exact fun t ht => ⟨t, rfl, ht.whole_of_none⟩
  | cons cls queries ih =>
    intro t ht
    obtain ⟨⟨hcls, htraversal, hdepth⟩, hrest⟩ := forall_mem_cons.mp hvisits
    obtain ⟨u, hrun, hu⟩ := exists_order ht hcls htraversal hdepth fun _ hc => absurd rfl hc
    obtain ⟨v, hothers, hv⟩ := ih hrest u hu
    exact ⟨v, by rw [mapM_cons, bind_of_ok hrun, bind_of_ok hothers]; rfl, hv⟩

end Infer

/-- Three classes and a value that is no class. The last class derives from either of the others,
then from the first one, which the second one derives from. -/
def Session.derivedSample : Session where
  values := { items := #[.cls default 0, .cls default 0, .cls default 0, .compiled [] [] false] }
  memo := ((({} : Memo Question Answer).finish (.bases 0) []).finish (.bases 1) [⟨[0]⟩]).finish
    (.bases 2) [⟨[1, 3]⟩, ⟨[0]⟩]

theorem Session.bases?_derivedSample :
    derivedSample.bases? 0 = some [] ∧ derivedSample.bases? 1 = some [⟨[0]⟩] ∧
      derivedSample.bases? 2 = some [⟨[1, 3]⟩, ⟨[0]⟩] ∧ ∀ c, derivedSample.memo.find? (.order c) =
        none := by
  simp [bases?, derivedSample, Memo.find?_finish_of_ne]

theorem Infer.mapM_order_preorder_derivedSample :
    ∃ t, [2, 0, 2].mapM order (engine 9) .derivedSample = (.ok [[2, 1, 0], [0], [2, 1, 0]], t) ∧
      t.Whole := by
  obtain ⟨hzero, hone, htwo, hnone⟩ := Session.bases?_derivedSample
  have habove (c : ValueId) (sets : List ValueSet)
    (hsets : Session.derivedSample.bases? c = some sets)
      (hclass : Session.derivedSample.values.get? c = some (.cls default 0)) :
      Session.derivedSample.baseClasses? c =
        some ((sets.flatMap (·.ids)).filter Session.derivedSample.values.isClass) := by
    simp [Session.baseClasses?, Values.plainClass, Values.class?, hclass, hsets]
  have hfirst : Visits Session.derivedSample.baseClasses? [0] [0] :=
    .single (habove 0 _ hzero rfl) .nil
  have hsecond : Visits Session.derivedSample.baseClasses? [1] [1, 0] :=
    .single (habove 1 _ hone rfl) hfirst
  have hthird : Visits Session.derivedSample.baseClasses? [2] [2, 1, 0, 0] :=
    .single (habove 2 _ htwo rfl) (hsecond.append hfirst)
  have hwhole : Session.derivedSample.Whole := fun c _ hentry => by
    cases (hnone c).symm.trans hentry
  refine mapM_order_preorder hwhole [2, 0,
    2] (fun c => if c = 2 then [2, 1, 0, 0] else [0]) fun c hc => ?_
  obtain rfl | rfl : c = 2 ∨ c = 0 := by
    simp only [mem_cons, not_mem_nil, or_false] at hc
    tauto
  · exact ⟨rfl, hthird, by decide⟩
  · exact ⟨rfl, hfirst, by decide⟩

end NameInference

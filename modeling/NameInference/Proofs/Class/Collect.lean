import NameInference.Proofs.Steady.Values

/-!
# Collecting orders

The order of a class is collected while bases are found and the orders of the bases are asked for,
and a class that is met again meanwhile gives what it has so far. Whatever is met on the way, the
orders of the session stay in order. If an order cannot be collected, then this is so because bases
were not found or the order of a base was not collected.
-/

namespace NameInference

open Memo

namespace Session

variable {s t : Session} {cls member : ValueId} {q : Question}

/-- The session in which the order of a class begins with the class itself. -/
def beginOrder (s : Session) (cls : ValueId) : Session :=
  memoSlot.update (fun memo => (memo.start (.order cls) (some [])).grow (.order cls) (· ++ [cls])) s

theorem find?_beginOrder_self (s : Session) (cls : ValueId) :
    (s.beginOrder cls).memo.find? (.order cls) = some (.running (some [cls])) :=
  find?_grow_self find?_start_self

theorem find?_beginOrder_of_ne (hq : q ≠ .order cls) :
    (s.beginOrder cls).memo.find? q = s.memo.find? q :=
  (find?_grow (.inl hq)).trans (find?_start_of_ne hq)

theorem keeps_beginOrder (s : Session) (hnew : s.memo.find? (.order cls) = none) :
    s.Keeps (s.beginOrder cls) :=
  ⟨keeps_of_ne (by simp [hnew]) fun _ hq => find?_beginOrder_of_ne hq, .refl _⟩

theorem Ordered.beginOrder (h : s.Ordered) (hnew : s.memo.find? (.order cls) = none) :
    (s.beginOrder cls).Ordered := by
  refine h.keeps (s.keeps_beginOrder hnew) fun c entry hentry => ?_
  by_cases hc : c = cls
  · subst hc
    cases (s.find?_beginOrder_self c).symm.trans hentry
    exact .inr ⟨[c], .inr rfl, isOrder_self _ c⟩
  · exact .inl ((find?_beginOrder_of_ne (by simpa using hc)).symm.trans hentry)

/-- The order of a class grows by a class that can be reached. -/
theorem Evolves.appendNew (h : s.Evolves t) (hmember : s.Ordered → t.Reaches cls member) :
    s.Evolves (memoSlot.update (·.grow (.order cls) (Infer.appendNew · member)) t) := by
  refine h.update Memo.keeps_grow (fun _ => Memo.isRunning_grow) fun hs => ?_
  refine (h.ordered hs).keeps ⟨Memo.keeps_grow, .refl _⟩ fun c entry hentry => ?_
  by_cases hgrows : c = cls ∧ ∃ sofar, t.memo.find? (.order cls) = some (.running (some sofar))
  · obtain ⟨rfl, sofar, hsofar⟩ := hgrows
    cases (find?_grow_self hsofar).symm.trans hentry
    obtain ⟨list, hlist, horder⟩ := h.ordered hs c _ hsofar
    obtain rfl : sofar = list := by simpa using hlist
    exact .inr ⟨_, .inr rfl, (horder.appendNew (hmember hs)).keeps ⟨Memo.keeps_grow, .refl _⟩⟩
  · refine .inl ((find?_grow ?_).symm.trans hentry)
    by_cases hc : c = cls
    · exact .inr fun sofar hsofar => hgrows ⟨hc, sofar, hsofar⟩
    · exact .inl (by simpa using hc)

/-- The order that has been collected is recorded, or none is. -/
theorem Evolves.close_order {f : Memo Question Answer → Memo Question Answer}
    (hnew : s.memo.find? (.order cls) = none) (h : (s.beginOrder cls).Evolves t)
    (hothers : ∀ p, p ≠ .order cls → (f t.memo).find? p = t.memo.find? p)
    (hentry : ∀ list, t.memo.find? (.order cls) = some (.running (some list)) →
      ∀ entry, (f t.memo).find? (.order cls) = some entry → entry = .done list)
    (hclosed : (f t.memo).isRunning (.order cls) = false) : s.Evolves (memoSlot.update f t) := by
  have hrunning : t.memo.isRunning (.order cls) = true :=
    (h.running _).trans (isRunning_iff.mpr ⟨_, s.find?_beginOrder_self cls⟩)
  obtain ⟨sofar, hsofar⟩ := isRunning_iff.mp hrunning
  have hkeeps : t.memo.Keeps (f t.memo) := keeps_of_ne (by simp [hsofar]) hothers
  unfold Session.beginOrder at h
  refine h.close hnew (fun _ hp => find?_beginOrder_of_ne hp) hothers hclosed fun hs => ?_
  have ht := h.ordered (hs.beginOrder hnew)
  refine ht.keeps ⟨hkeeps, .refl _⟩ fun c entry hfound => ?_
  by_cases hc : c = cls
  · subst hc
    obtain ⟨list, hlist, horder⟩ := ht c _ hsofar
    obtain rfl : sofar = some list := by simpa using hlist
    exact .inr ⟨list, .inl (hentry list hsofar entry hfound), horder.keeps ⟨hkeeps, .refl _⟩⟩
  · exact .inl ((hothers _ (by simpa using hc)).symm.trans hfound)

end Session

namespace Infer

variable {α β : Type} {calls : Calls} {b s t : Session} {cls : ValueId} {cause : Prop}

/-- What comes of a step that is taken some time after another session: the session has evolved
since then, nothing that was there is lost, a result has a property, and a failure has a cause. -/
structure Meets (cause : Prop) (b s : Session) (post : α → Session → Prop)
    (out : Except Failure α × Session) :
    Prop where
  evolves : b.Evolves out.2
  keeps : s.Keeps out.2
  result : ∀ a, out.1 = .ok a → post a out.2
  failure : ∀ e, out.1 = .error e → cause

namespace Meets

variable {post : α → Session → Prop} {post' : β → Session → Prop}

theorem of_evolves {out : Except Failure α × Session} (hb : b.Evolves s) (h : s.Evolves out.2)
    (hresult : ∀ a, out.1 = .ok a → post a out.2) (hfailure : ∀ e, out.1 = .error e → cause) :
    Meets cause b s post out :=
  ⟨hb.trans h, h.keeps, hresult, hfailure⟩

theorem pure {a : α} (hb : b.Evolves s) (ha : post a s) : Meets cause b s post (.ok a, s) :=
  .of_evolves hb (.refl s) (fun _ h => Except.ok.inj h ▸ ha) fun _ h => by cases h

theorem bind {step : Infer α} {next : α → Infer β} (h : Meets cause b s post (step calls s))
    (hnext : ∀ a t, b.Evolves t → s.Keeps t → post a t → Meets cause b t post' (next a calls t)) :
    Meets cause b s post' ((step >>= next) calls s) := by
  rw [bind_apply]
  cases hrun : step calls s with
  | mk outcome t =>
    rw [hrun] at h
    cases outcome with
    | error e => exact ⟨h.evolves, h.keeps, nofun, fun _ _ => h.failure e rfl⟩
    | ok a =>
      have hrest := hnext a t h.evolves h.keeps (h.result a rfl)
      exact ⟨hrest.evolves, h.keeps.trans hrest.keeps, hrest.result, hrest.failure⟩

/-- A loop goes on as long as its rounds do. -/
theorem forIn {items : List α} {body : α → PUnit → Infer (ForInStep PUnit)} (hb : b.Evolves s)
    (hbody : ∀ item ∈ items, ∀ t, b.Evolves t → s.Keeps t →
      Meets cause b t (fun step _ => step = .yield ⟨⟩) (body item ⟨⟩ calls t)) :
    Meets cause b s (fun _ _ => True) (forIn items PUnit.unit body calls s) := by
  induction items generalizing s with
  | nil => exact .pure hb trivial
  | cons item rest ih =>
    rw [List.forIn_cons]
    refine (hbody item List.mem_cons_self s hb ⟨.refl _, .refl _⟩).bind
      fun step t ht hkeeps hstep => ?_
    subst hstep
    exact ih ht fun other hother u hu hkept => hbody other (List.mem_cons_of_mem _ hother) u hu
      (hkeeps.trans hkept)

end Meets

theorem order_of_isClass (h : s.values.isClass cls = true) :
    order cls calls s = calls.ask (.order cls) s := by
  have hget : (get : Infer Session) calls s = (.ok s, s) := rfl
  rw [order, bind_of_ok hget, if_pos h]
  rfl

/-- The bases that are found are recorded. -/
theorem meets_bases (hcalls : calls.Steady) (hb : b.Evolves s)
    (hfails : ∀ e t, calls.ask (.bases (s.values.plainClass cls)) s = (.error e, t) → cause) :
    Meets cause b s (fun sets t => ∀ base ∈ sets.flatMap (·.ids), t.values.isClass base = true →
      t.HasBase cls base) (bases cls calls s) := by
  have hevolves := SessionM.Steady.of_step (bases cls) hcalls s
  by_cases hclass : (s.values.class? (s.values.plainClass cls)).isSome = true
  · have hrun : bases cls calls s = calls.ask (.bases (s.values.plainClass cls)) s := by
      rw [bases, ofPlainClass, bind_of_ok (query_run _), bind_of_ok (query_run _), if_pos hclass]
      rfl
    rw [hrun] at hevolves ⊢
    refine .of_evolves hb hevolves (fun sets hsets base hbase hbaseClass => ?_) fun e he =>
      hfails e _ (Prod.ext he rfl)
    rcases hcalls.bases _ s sets _ (Prod.ext hsets rfl) with rfl | hdone
    · simp at hbase
    · have hcls := Values.isClass_of_class? hclass
      refine ⟨Values.isClass_of_keeps hcls hevolves.values, hbaseClass, sets, ?_,
        by simpa using hbase⟩
      rw [Values.plainClass_of_keeps hcls hevolves.values]
      exact hdone
  · have hrun : bases cls calls s = (.ok [], s) := by
      rw [bases, ofPlainClass, bind_of_ok (query_run _), bind_of_ok (query_run _), if_neg hclass]
      rfl
    rw [hrun]
    exact .pure hb (by simp)

/-- What the order of a base tells can be reached. -/
theorem meets_order (hcalls : calls.Steady) (hb : b.Evolves s) {base : ValueId}
    (hbase : s.HasBase cls base) (hfails : ∀ e t, order base calls s = (.error e, t) → cause) :
    Meets cause b s (fun list t => b.Ordered → ∀ member ∈ list, t.Reaches cls member)
    (order base calls s) := by
  have hevolves := SessionM.Steady.of_step (order base) hcalls s
  refine .of_evolves hb hevolves (fun list hlist hordered member hmember => ?_) fun e he =>
    hfails e _ (Prod.ext he rfl)
  have ht := (hb.trans hevolves).ordered hordered
  rw [order_of_isClass hbase.isClass_base] at hevolves hlist ht ⊢
  rcases hcalls.order base s list _ (Prod.ext hlist rfl) with rfl | ⟨entry, hentry, hend⟩
  · cases hmember
  · obtain ⟨found, hfound, horder⟩ := ht base entry hentry
    obtain rfl : list = found := by rcases hend with rfl | rfl <;> simpa using hfound
    exact (horder.reaches member hmember).head (hbase.keeps hevolves.keeps)

/-- Gives a piece to the growing order of a class. -/
def growOrder (cls : ValueId) (f : List ValueId → List ValueId) : Infer Unit :=
  fun _ => Session.memoSlot.grow (.order cls) f

/-- Collects the orders of the bases. -/
def followBases (cls : ValueId) : Infer Unit := do
  for base in ← classesIn (← bases cls) do
    for member in ← order base do
      growOrder cls (appendNew · member)

/-- Once a class is listed itself, its order is computed by following its bases. -/
theorem computeOrder_run (cls : ValueId) (calls : Calls) (s : Session) :
    computeOrder cls (growOrder cls) calls
      (Session.memoSlot.update (·.start (.order cls) (some [])) s) =
      followBases cls calls (s.beginOrder cls) := rfl

/-- Base after base is followed. -/
theorem meets_followBases (hcalls : calls.Steady)
    (hbases : ∀ e t, calls.ask (.bases (b.values.plainClass cls)) b = (.error e, t) → cause)
    (horders : ∀ base u e t, b.Evolves u → u.HasBase cls base → order base calls u = (.error e, t) →
      cause) : Meets cause b b (fun _ _ => True) (followBases cls calls b) := by
  refine (meets_bases hcalls (.refl b) hbases).bind fun sets t ht _ hsets => ?_
  have hclasses : Meets cause b t (fun classes u => u = t ∧ ∀ base ∈ classes, t.HasBase cls base)
      (classesIn sets calls t) := by
    refine .pure ht ⟨rfl, fun base hbase => ?_⟩
    obtain ⟨hmem, hclass⟩ := List.mem_filter.mp hbase
    exact hsets base hmem hclass
  refine hclasses.bind fun classes u hu _ ⟨hsame, hall⟩ => ?_
  subst hsame
  refine (Meets.forIn hu fun base hbase v hv hkept => ?_).bind fun _ v hv _ _ => .pure hv trivial
  have hbase := (hall base hbase).keeps hkept
  refine (meets_order hcalls hv hbase fun e w => horders base v e w hv hbase).bind
    fun list w hw _ hlist => ?_
  refine (Meets.forIn hw fun member hmember x hx hkept => ?_).bind fun _ x hx _ _ => .pure hx rfl
  -- What could be reached when the order was given can be reached when a member of it is appended.
  have happended := hx.appendNew fun hordered =>
    Session.Reaches.keeps (hlist hordered member hmember) hkept
  have hkeeps := x.keeps_grow (.order cls) (appendNew · member)
  exact ⟨happended, hkeeps, fun _ h => (Except.ok.inj h).symm, fun _ h => by cases h⟩

/-- How a question about an order ends. -/
abbrev OrderEnding (cls : ValueId) (calls : Calls) (s : Session)
    (r : Except Failure (Answer (.order cls)) × Session) : Prop :=
  Session.memoSlot.Ending Failure.isRecoverable (.order cls) (some []) (·.getD [])
    (fun _ t => (t.memo.sofar? (.order cls)).getD []) (computeOrder cls (growOrder cls) calls) s r

theorem answer_order_ending (cls : ValueId) (calls : Calls) (s : Session) :
    OrderEnding cls calls s (answer (.order cls) calls s) :=
  @MemoSlot.generate_ending _ _ _ _ _ _ _ Session.memoSlot Failure.isRecoverable (.order cls) []
    (fun grow => computeOrder cls (fun f _ => grow f) calls) s

theorem OrderEnding.evolves {r : Except Failure (Answer (.order cls)) × Session}
    (h : OrderEnding cls calls s r) (hcalls : calls.Steady) : s.Evolves r.2 := by
  have hmeets : Meets True (s.beginOrder cls) _ _ (followBases cls calls (s.beginOrder cls)) :=
    meets_followBases hcalls (fun _ _ _ => trivial) fun _ _ _ _ _ _ _ => trivial
  rw [← computeOrder_run] at hmeets
  cases h with
  | known => exact s.evolves_hit
  | again => exact s.evolves_trip
  | @finished _ t hnew hrun =>
    rw [hrun] at hmeets
    refine hmeets.evolves.close_order
      (f := (·.finish (.order cls) ((t.memo.sofar? (.order cls)).getD []))) hnew
      (fun _ hp => find?_finish_of_ne hp) (fun list hlist entry hentry => ?_)
        (by simp [Memo.isRunning])
    rw [find?_finish_self, Memo.sofar?, hlist] at hentry
    exact (Option.some.inj hentry).symm
  | failed hnew hrun =>
    rw [hrun] at hmeets
    exact hmeets.evolves.close_order (f := (·.forget (.order cls))) hnew
      (fun _ hp => find?_forget_of_ne hp) (by simp) (by simp [Memo.isRunning])

/-- A failure to answer comes from the bases that are followed. -/
theorem OrderEnding.failure {r : Except Failure (Answer (.order cls)) × Session}
    (h : OrderEnding cls calls s r) {e : Failure} (he : r.1 = .error e) :
    e = .nestedTooDeeply ∧ s.memo.find? (.order cls) = none ∧
      ∃ u, followBases cls calls (s.beginOrder cls) = (.error e, u) := by
  cases h with
  | known | again | finished => cases he
  | failed hnew hrun hforeign =>
    cases he
    refine ⟨?_, hnew, _, hrun⟩
    cases e with
    | nestedTooDeeply => rfl
    | unreadable | malformed => cases hforeign

/-- What is answered about bases is recorded, if it is anything. -/
theorem bases_of_answer {sets : List ValueSet} (h : answer (.bases cls) calls s = (.ok sets, t)) :
    sets = [] ∨ t.memo.find? (.bases cls) = some (.done sets) := by
  have hending := Session.memoSlot.answer_ending Failure.isRecoverable
    (Answer.fallback (.bases cls)) (compute (.bases cls) calls) s
  change Session.memoSlot.answer _ (.bases cls) _ _ s = _ at h
  rw [h] at hending
  exact (Session.recorded_of_ending hending).imp_left fun ⟨_, _, _, hsets⟩ => hsets

/-- What is answered about an order is held by the session, if it is anything. -/
theorem order_of_answer {list : List ValueId} (h : answer (.order cls) calls s = (.ok list, t)) :
    list = [] ∨
    ∃ entry, t.memo.find? (.order cls) = some entry ∧
      (entry = .done list ∨ entry = .running (some list)) := by
  rcases Session.recorded_of_ending (h ▸ answer_order_ending cls calls s) with
    ⟨sofar, -, hfound, rfl⟩ | hdone
  · cases sofar with
    | none => exact .inl rfl
    | some list => exact .inr ⟨_, hfound, .inr rfl⟩
  · exact .inr ⟨_, hdone, .inl rfl⟩

end Infer

end NameInference

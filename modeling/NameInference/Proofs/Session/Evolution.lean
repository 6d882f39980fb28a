import NameInference.Inference.Query
import NameInference.Proofs.Class.Bases

/-!
# How sessions evolve

Inference only adds to a session. Recorded answers, interned values and parsed sources stay where
they are, values stay told apart by their keys, no issue is recorded twice, the orders of classes
stay in order, and whatever begins to be computed is no longer being computed at the end. One
reflexive and transitive relation says all of this of a step and of a whole computation.
-/

namespace NameInference

open Memo

variable {recovers : Failure → Bool}

namespace Session

/-- No issue is recorded twice. -/
def DistinctIssues (s : Session) : Prop := (s.issues.map Issue.key).Nodup

/-- What inference makes of a session. -/
structure Evolves (s t : Session) : Prop where
  answers : s.memo.Keeps t.memo
  running : ∀ q, t.memo.isRunning q = s.memo.isRunning q
  values : s.values.Keeps t.values
  arguments : s.arguments.Keeps t.arguments
  trees : ∀ n tree, s.tree? n = some tree → t.tree? n = some tree
  consistent : s.values.Consistent → t.values.Consistent
  distinct : s.DistinctIssues → t.DistinctIssues
  ordered : s.Ordered → t.Ordered

variable {s t u : Session} {q : Question}

theorem Evolves.refl (s : Session) : s.Evolves s :=
  ⟨.refl _, fun _ => rfl, .refl _, .refl _, fun _ _ h => h, fun h => h, fun h => h, fun h => h⟩

theorem Evolves.trans (h : s.Evolves t) (h' : t.Evolves u) : s.Evolves u where
  answers := h.answers.trans h'.answers
  running q := (h'.running q).trans (h.running q)
  values := h.values.trans h'.values
  arguments := h.arguments.trans h'.arguments
  trees n tree htree := h'.trees n tree (h.trees n tree htree)
  consistent hconsistent := h'.consistent (h.consistent hconsistent)
  distinct hdistinct := h'.distinct (h.distinct hdistinct)
  ordered hordered := h'.ordered (h.ordered hordered)

theorem Evolves.keeps (h : s.Evolves t) : s.Keeps t := ⟨h.answers, h.values⟩

/-- All of a session that evolves; the rest may change in any way. -/
def remembered (s : Session) :
    Memo Question Answer × Values × ArgumentLists × Array SourceTree × List Issue :=
  (s.memo, s.values, s.arguments, s.trees, s.issues)

/-- A change to the rest. -/
theorem Evolves.of_same (h : t.remembered = s.remembered) : s.Evolves t := by
  simp only [remembered, Prod.mk.injEq] at h
  obtain ⟨hmemo, hvalues, harguments, htrees, hissues⟩ := h
  exact ⟨hmemo ▸ .refl _, fun _ => by rw [hmemo], hvalues ▸ .refl _, harguments ▸ .refl _,
    fun _ _ h => by rwa [tree?, htrees], fun h => by rwa [hvalues],
    fun h => by rwa [DistinctIssues, hissues], fun h => h.of_memo_eq hmemo (hvalues ▸ .refl _)⟩

/-- A change to the memo. -/
theorem Evolves.update {f : Memo Question Answer → Memo Question Answer} (h : s.Evolves t)
    (hanswers : t.memo.Keeps (f t.memo))
    (hrunning : ∀ q, (f t.memo).isRunning q = t.memo.isRunning q)
    (hordered : s.Ordered → (memoSlot.update f t).Ordered) : s.Evolves (memoSlot.update f t) where
  answers := h.answers.trans hanswers
  running q := (hrunning q).trans (h.running q)
  values := h.values
  arguments := h.arguments
  trees := h.trees
  consistent := h.consistent
  distinct := h.distinct
  ordered := hordered

/-- A change to the memo that leaves the orders. -/
theorem Evolves.of_memo {f : Memo Question Answer → Memo Question Answer}
    (hanswers : s.memo.Keeps (f s.memo))
    (hrunning : ∀ q, (f s.memo).isRunning q = s.memo.isRunning q)
    (horders : ∀ c, (f s.memo).find? (.order c) = s.memo.find? (.order c)) :
    s.Evolves (memoSlot.update f s) :=
  (Evolves.refl s).update hanswers hrunning fun h =>
    h.keeps ⟨hanswers, .refl _⟩ fun c _ hentry => .inl ((horders c).symm.trans hentry)

theorem evolves_hit (s : Session) : s.Evolves (memoSlot.update (·.hit) s) :=
  .of_memo (.refl _) (fun _ => rfl) fun _ => rfl

theorem evolves_trip (s : Session) : s.Evolves (memoSlot.update (·.trip) s) :=
  .of_memo (.refl _) (fun _ => rfl) fun _ => rfl

theorem evolves_grow (hq : ∀ c, q ≠ .order c) (f : Answer q → Answer q) (s : Session) :
    s.Evolves (memoSlot.update (·.grow q f) s) :=
  .of_memo Memo.keeps_grow (fun _ => Memo.isRunning_grow) fun c =>
    Memo.find?_grow (.inl (hq c).symm)

theorem evolves_intern (value : Value Place) (s : Session) : s.Evolves (s.intern value).2 where
  answers := .refl _
  running _ := rfl
  values := Arena.keeps_intern _ _ _
  arguments := .refl _
  trees _ _ h := h
  consistent h := h.intern value
  distinct h := h
  ordered h := h.of_memo_eq rfl (Arena.keeps_intern _ _ _)

theorem evolves_internArguments (list : ArgumentList Place) (s : Session) :
    s.Evolves (s.internArguments list).2 where
  answers := .refl _
  running _ := rfl
  values := .refl _
  arguments := Arena.keeps_intern _ _ _
  trees _ _ h := h
  consistent h := h
  distinct h := h
  ordered h := h.of_memo_eq rfl (.refl _)

theorem evolves_storeTree (module : Module) (path : Text) (s : Session) :
    s.Evolves (s.storeTree module path).2 where
  answers := .refl _
  running _ := rfl
  values := .refl _
  arguments := .refl _
  trees n tree h := by
    obtain ⟨hlt, -⟩ := Array.getElem?_eq_some_iff.mp h
    exact (Array.getElem?_push_lt hlt).trans ((Array.getElem?_eq_getElem hlt).symm.trans h)
  consistent h := h
  distinct h := h
  ordered h := h.of_memo_eq rfl (.refl _)

/-- An issue is recorded only if no recorded one has its key. -/
theorem evolves_addIssue (issue : Issue) (s : Session) : s.Evolves (s.addIssue issue) := by
  unfold addIssue
  split
  · exact .refl s
  · next hnew =>
    refine ⟨.refl _, fun _ => rfl, .refl _, .refl _, fun _ _ h => h, fun h => h, fun h => ?_,
      fun h => h.of_memo_eq rfl (.refl _)⟩
    have hkey : ∀ i ∈ s.issues, i.key ≠ issue.key := by simpa using hnew
    rw [DistinctIssues, List.map_append]
    refine List.nodup_append.mpr ⟨h, by simp, fun key hmem other hother => ?_⟩
    obtain ⟨i, hi, rfl⟩ := List.mem_map.mp hmem
    obtain rfl : other = issue.key := by simpa using hother
    exact hkey i hi

theorem remembered_debug (message : Session → Text) (s : Session) :
    (s.debug message).remembered = s.remembered := by
  unfold debug
  split <;> rfl

theorem remembered_warn (message : Session → Text) (s : Session) :
    (s.warn message).remembered = s.remembered := by
  unfold warn
  split <;> rfl

theorem evolves_internModule (m : ModuleValue) (s : Session) : s.Evolves (s.internModule m).2 := by
  refine (evolves_intern (.module m) s).trans ?_
  unfold internModule
  simp only
  split
  · exact .refl _
  · split <;> exact .of_same (remembered_debug _ _)

/-- A computation evolves a session if it does so from its mark on, whatever becomes of the mark in
the end. -/
theorem Evolves.close {mark f : Memo Question Answer → Memo Question Answer}
    (h : (memoSlot.update mark s).Evolves t) (hnew : s.memo.find? q = none)
    (hmark : ∀ p, p ≠ q → (mark s.memo).find? p = s.memo.find? p)
    (hothers : ∀ p, p ≠ q → (f t.memo).find? p = t.memo.find? p)
    (hclosed : (f t.memo).isRunning q = false)
    (hordered : s.Ordered → (memoSlot.update f t).Ordered) : s.Evolves (memoSlot.update f t) where
  answers := by
    intro p a hfound
    have hp : p ≠ q := by
      rintro rfl
      simp [hnew] at hfound
    exact (hothers p hp).trans (h.answers p a ((hmark p hp).trans hfound))
  running p := by
    by_cases hp : p = q
    · subst hp
      exact hclosed.trans (by rw [Memo.isRunning, hnew])
    · have hstarted : (mark s.memo).isRunning p = s.memo.isRunning p := isRunning_congr (hmark p hp)
      exact (isRunning_congr (hothers p hp)).trans ((h.running p).trans hstarted)
  values := h.values
  arguments := h.arguments
  trees := h.trees
  consistent := h.consistent
  distinct := h.distinct
  ordered := hordered

theorem not_done_of_mark {mark : Memo Question Answer → Memo Question Answer}
    (hmark : (mark s.memo).isRunning q = true) (h : (memoSlot.update mark s).Evolves t)
    (a : Answer q) : t.memo.find? q ≠ some (.done a) := by
  obtain ⟨sofar, hfound⟩ := isRunning_iff.mp ((h.running q).trans hmark)
  simp [hfound]

/-- A computation of another answer than an order keeps the orders as they are. -/
theorem Evolves.close_of_ne {sofar : Option (Answer q)}
    {f : Memo Question Answer → Memo Question Answer} (hq : ∀ c, q ≠ .order c)
    (hnew : s.memo.find? q = none) (h : (memoSlot.update (·.start q sofar) s).Evolves t)
    (hothers : ∀ p, p ≠ q → (f t.memo).find? p = t.memo.find? p)
    (hclosed : (f t.memo).isRunning q = false) :
    s.Evolves (memoSlot.update f t) := by
  refine h.close hnew (fun p hp => find?_start_of_ne hp) hothers hclosed fun hs => ?_
  have hfresh : ∀ a, s.memo.find? q ≠ some (.done a) := by simp [hnew]
  have hmarked : (memoSlot.update (·.start q sofar) s).Ordered :=
    hs.keeps ⟨keeps_of_ne hfresh fun p hp => find?_start_of_ne hp, .refl _⟩ fun c _ hentry =>
      .inl ((find?_start_of_ne (hq c).symm).symm.trans hentry)
  have hkeeps : t.memo.Keeps (f t.memo) :=
    keeps_of_ne (not_done_of_mark (isRunning_start.mpr (.inl rfl)) h) hothers
  exact (h.ordered hmarked).keeps ⟨hkeeps, .refl _⟩
    fun c _ hentry => .inl ((hothers _ (hq c).symm).symm.trans hentry)

theorem Evolves.finish {sofar : Option (Answer q)} (hq : ∀ c, q ≠ .order c)
    (hnew : s.memo.find? q = none) (h : (memoSlot.update (·.start q sofar) s).Evolves t)
    (a : Answer q) :
    s.Evolves (memoSlot.update (·.finish q a) t) :=
  h.close_of_ne hq hnew (fun _ hp => find?_finish_of_ne hp) (by simp [Memo.isRunning])

theorem Evolves.forget {sofar : Option (Answer q)} (hq : ∀ c, q ≠ .order c)
    (hnew : s.memo.find? q = none) (h : (memoSlot.update (·.start q sofar) s).Evolves t) :
    s.Evolves (memoSlot.update (·.forget q) t) :=
  h.close_of_ne hq hnew (fun _ hp => find?_forget_of_ne hp) (by simp [Memo.isRunning])

/-- An answer stands in for one that is being computed, or is recorded. -/
theorem recorded_of_ending {α : Type} {initial : Option (Answer q)}
    {fallback : Option (Answer q) → Answer q} {close : Except Failure α → Session → Answer q}
    {compute : SessionM α} {a : Answer q}
    (h : memoSlot.Ending recovers q initial fallback close compute s (.ok a, t)) :
    (∃ sofar, s.memo.find? q = some (.running sofar) ∧ t.memo.find? q = some (.running sofar) ∧
      a = fallback sofar) ∨ t.memo.find? q = some (.done a) := by
  cases h with
  | known hfound => exact .inr hfound
  | again hfound => exact .inl ⟨_, hfound, hfound, rfl⟩
  | finished => exact .inr find?_finish_self

end Session

namespace SessionM

variable {q : Question}

/-- Every session evolves by the step, whether it fails or not. -/
def Steady {α : Type} (step : SessionM α) : Prop := ∀ s : Session, s.Evolves (step s).2

theorem Steady.bind {α β : Type} {step : SessionM α} {next : α → SessionM β} (hstep : Steady step)
    (hnext : ∀ a, Steady (next a)) : Steady (step >>= next) := by
  intro s
  have hfirst := hstep s
  change s.Evolves (match step s with | (outcome, t) => ExceptT.bindCont next outcome t).2
  cases hrun : step s with
  | mk outcome t =>
    rw [hrun] at hfirst
    cases outcome with
    | error => exact hfirst
    | ok a => exact hfirst.trans (hnext a t)

/-- A call through the memo, but for that of an order, is steady if its computation is. -/
theorem Steady.of_ending (hq : ∀ c, q ≠ .order c) {α : Type} {initial : Option (Answer q)}
    {fallback : Option (Answer q) → Answer q} {close : Except Failure α → Session → Answer q}
    {compute : SessionM α} (h : Steady compute) {s : Session}
    {r : Except Failure (Answer q) × Session}
    (hcall : Session.memoSlot.Ending recovers q initial fallback close compute s r) :
    s.Evolves r.2 := by
  have hcompute := h (Session.memoSlot.update (·.start q initial) s)
  cases hcall with
  | known => exact s.evolves_hit
  | again => exact s.evolves_trip
  | finished hfound hrun =>
    rw [hrun] at hcompute
    exact hcompute.finish hq hfound _
  | failed hfound hrun =>
    rw [hrun] at hcompute
    exact hcompute.forget hq hfound

theorem steady_answer (hq : ∀ c, q ≠ .order c) {fallback : Answer q} {compute : SessionM (Answer q)}
    (h : Steady compute) : Steady (Session.memoSlot.answer recovers q fallback compute) :=
  fun s => h.of_ending hq (Session.memoSlot.answer_ending recovers fallback compute s)

/-- So is an answer that grows. -/
theorem steady_generate (hq : ∀ c, q ≠ .order c) {empty : Answer q}
    {compute : ((Answer q → Answer q) → SessionM Unit) → SessionM Unit}
    (h : Steady (compute (Session.memoSlot.grow q))) :
    Steady (Session.memoSlot.generate recovers q empty compute) :=
  fun s => h.of_ending hq (Session.memoSlot.generate_ending recovers empty compute s)

end SessionM

end NameInference

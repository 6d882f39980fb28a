import Mathlib.Data.List.Sort
import NameInference.Inference.Engine
import NameInference.Proofs.Inference.Ensures
import NameInference.Proofs.Token.Position

/-!
# Which bindings hold

Of the bindings of a name, a scope selects those that may hold at an origin.

* `Bindings.mem_mayHold`: from the last to the first, the bindings that no certain one hides.
* `Infer.Settles`: a step that gives a known result and keeps what is known about the session.
* `Infer.select_exact`: the selected bindings, said without the order in which they are tried.
-/

namespace NameInference

open List

variable {b : Binding}

section Certain

variable {m : Type → Type} [Monad m] [LawfulMonad m]

/-- A scope leaves no doubt about what it governs. -/
theorem Place.verdictUpTo_of_isScope (check : Place → m Reachability)
    {scope : Option PlaceKey} {p flow : Place} (h : flow.node.form.isScope = true) :
    verdictUpTo check scope p flow = pure .reachable := by
  have hverdict : verdictOf check flow p = pure .reachable := by
    obtain ⟨tree, ⟨span, usage, form⟩, above⟩ := flow
    cases form <;> first | rfl | cases h
  rw [verdictUpTo, hverdict, pure_bind]
  simp [h]

/-- A single binding that is reached is selected if it is visible. -/
theorem Bindings.select_singleton {verdict : Binding → m Reachability}
    {visible accessible : Binding → Bool} {b : Binding} (hverdict : verdict b = pure .reachable)
    (haccessible : accessible b = true) :
    select verdict visible accessible none [b] = pure (if visible b then [b] else []) := by
  by_cases hvisible : visible b = true
  · simp [select, takeReached, hvisible, hverdict, haccessible]
  · simp [select, takeReached, hvisible]

end Certain

namespace Bindings

/-- The later of two bindings stands first. -/
def Descending (bindings : List Binding) : Prop :=
  bindings.Pairwise fun a b => b.name.start < a.name.start

/-- The bindings up to the first that is certain to be reached, without those that are not reached.
-/
def mayHold (verdicts : Binding → Reachability) : List Binding → List Binding
  | [] => []
  | b :: rest =>
    match verdicts b with
    | .unreachable => mayHold verdicts rest
    | .reachable => [b]
    | .unsure => b :: mayHold verdicts rest

section Known

variable {verdicts : Binding → Reachability} {bindings : List Binding} {b : Binding}

theorem mayHold_sublist (verdicts : Binding → Reachability) (bindings : List Binding) :
    (mayHold verdicts bindings).Sublist bindings := by
  fun_induction mayHold verdicts bindings with
  | case1 => exact List.Sublist.refl []
  | case2 b rest _ ih => exact ih.cons b
  | case3 b rest => simp
  | case4 b rest _ ih => exact ih.cons_cons b

/-- The bindings that may be reached and that no later one hides. -/
theorem mem_mayHold (h : Descending bindings) : b ∈ mayHold verdicts bindings ↔
    b ∈ bindings ∧ verdicts b ≠ .unreachable ∧
      ∀ later ∈ bindings, b.name.start < later.name.start → verdicts later ≠ .reachable := by
  induction bindings with
  | nil => simp [mayHold]
  | cons first rest ih =>
    obtain ⟨hfirst, hrest⟩ := pairwise_cons.mp h
    have hlast : ∀ later ∈ rest, ¬ first.name.start < later.name.start :=
      fun later hlater => lt_asymm (hfirst later hlater)
    -- Being later than the others, the first decides whether any of them holds.
    cases hverdict : verdicts first with
    | unreachable =>
      rw [mayHold, hverdict]
      simp only
      rw [ih hrest]
      grind
    | reachable =>
      rw [mayHold, hverdict]
      simp only
      grind
    | unsure =>
      rw [mayHold, hverdict]
      simp only
      rw [mem_cons, ih hrest]
      grind

end Known

section Order

variable {bindings other : List Binding}

/-- No two bindings start at the same place. -/
def Apart (bindings : List Binding) : Prop :=
  bindings.Pairwise fun a b => a.name.start ≠ b.name.start

theorem isNoEarlier_iff {a b : Binding} : a.isNoEarlier b = true ↔ b.name.start ≤ a.name.start := by
  rw [Binding.isNoEarlier, Bool.not_eq_true', ← Bool.not_eq_true, Position.before_iff, not_lt]

theorem descending_mergeSort (h : Apart bindings) :
    Descending (bindings.mergeSort Binding.isNoEarlier) := by
  have hsorted : (bindings.mergeSort Binding.isNoEarlier).Pairwise fun a b =>
    a.isNoEarlier b = true :=
    pairwise_mergeSort
      (fun a b c hab hbc => by
        rw [isNoEarlier_iff] at hab hbc ⊢
        exact hbc.trans hab)
      (fun a b => by
        rw [Bool.or_eq_true, isNoEarlier_iff, isNoEarlier_iff]
        exact le_total _ _)
      bindings
  have hapart : Apart (bindings.mergeSort Binding.isNoEarlier) :=
    h.perm (mergeSort_perm bindings _).symm fun hab => hab.symm
  exact (hsorted.and hapart).imp fun ⟨hab, hne⟩ => lt_of_le_of_ne (isNoEarlier_iff.mp hab) hne.symm

/-- There is one order for all lists of the same bindings. -/
theorem mergeSort_eq_of_perm (h : Apart bindings) (hperm : other.Perm bindings) :
    other.mergeSort Binding.isNoEarlier = bindings.mergeSort Binding.isNoEarlier := by
  have hother : Apart other := h.perm hperm.symm fun hab => hab.symm
  have hsame : (other.mergeSort Binding.isNoEarlier).Perm
    (bindings.mergeSort Binding.isNoEarlier) :=
    ((mergeSort_perm other _).trans hperm).trans (mergeSort_perm bindings _).symm
  exact hsame.eq_of_pairwise (fun a b _ _ hab hba => absurd hba (lt_asymm hab))
    (descending_mergeSort hother) (descending_mergeSort h)

end Order

end Bindings

namespace Infer

/-- Whatever is known about the session, the step gives the result, and as much is known afterwards.
-/
def Settles {α : Type} (known : Session → Prop) (step : Infer α) (calls : Calls) (a : α) : Prop :=
  ∀ s, known s → ∃ t, step calls s = (.ok a, t) ∧ known t

section Settles

variable {α β : Type} {known : Session → Prop} {calls : Calls}

theorem settles_pure (a : α) : Settles known (pure a) calls a := fun s hs => ⟨s, rfl, hs⟩

theorem Settles.bind {step : Infer α} {next : α → Infer β} {a : α} {b : β}
    (h : Settles known step calls a) (hnext : Settles known (next a) calls b) :
    Settles known (step >>= next) calls b := by
  intro s hs
  obtain ⟨t, hrun, ht⟩ := h s hs
  obtain ⟨u, hlast, hu⟩ := hnext t ht
  exact ⟨u, (bind_of_ok hrun).trans hlast, hu⟩

theorem settles_takeReached {verdict : Binding → Infer Reachability}
    {verdicts : Binding → Reachability} {bindings : List Binding}
    (h : ∀ b ∈ bindings, Settles known (verdict b) calls (verdicts b)) :
    Settles known (Bindings.takeReached verdict bindings) calls
      (Bindings.mayHold verdicts bindings) := by
  induction bindings with
  | nil => exact settles_pure []
  | cons b rest ih =>
    obtain ⟨hb, hrest⟩ := forall_mem_cons.mp h
    rw [Bindings.takeReached, Bindings.mayHold]
    refine hb.bind ?_
    cases verdicts b with
    | unreachable => exact ih hrest
    | reachable => exact settles_pure [b]
    | unsure => exact (ih hrest).bind (settles_pure _)

end Settles

/-- What a verdict counts for in a scope: a binding of another scope and a further signature are
never certain. -/
def countedVerdict (scope : Place) (verdicts : Binding → Reachability) (b : Binding) :
    Reachability :=
  if !b.scope.same scope then .unsure
  else if verdicts b == .reachable && b.isOverload then .unsure
  else verdicts b

section Selection

variable {context : ValueId} {scope : Place} {origin : Option Place} {view : ScopeView}
  {limit : Option Position}
  {bindings : List Binding} {verdicts : Binding → Reachability} {known : Session → Prop}
    {calls : Calls}

theorem settles_bindingVerdict
    (h : b.scope.same scope = true →
      Settles known (b.name.reachability (check context) (some scope) origin) calls (verdicts b)) :
    Settles known (bindingVerdict context scope origin b) calls
      (countedVerdict scope verdicts b) := by
  unfold bindingVerdict countedVerdict
  cases hsame : b.scope.same scope with
  | false => exact settles_pure _
  | true => exact (h hsame).bind (settles_pure _)

/-- A binding that can be seen and stands before the limit. -/
def Candidate (view : ScopeView) (limit : Option Position) (b : Binding) : Prop :=
  view.isVisible b = true ∧ ∀ p ∈ limit, b.name.start < p

/-- A binding of the scope that is certain to be reached and adds more than a signature. -/
def Certain (scope : Place) (verdicts : Binding → Reachability) (b : Binding) : Prop :=
  verdicts b = .reachable ∧ b.isOverload = false ∧ b.scope.same scope = true

theorem countedVerdict_eq_reachable :
    countedVerdict scope verdicts b = .reachable ↔ Certain scope verdicts b := by
  unfold countedVerdict Certain
  cases b.scope.same scope <;> cases b.isOverload <;> cases verdicts b <;> simp

theorem isCandidate_iff :
    (view.isVisible b && limit.all b.name.start.before) = true ↔ Candidate view limit b := by
  simp [Candidate, Position.before_iff, Option.all_eq_true]

/-- Of bindings that start at different places, a scope selects exactly those that it may see before
the limit, that may be reached, that no later one of these hides for certain, and that it may use.
They come from the last to the first, whatever the order of the bindings is. -/
theorem select_exact (context : ValueId) (scope : Place) (origin : Option Place) (view : ScopeView)
    (limit : Option Position) (hapart : Bindings.Apart bindings)
    (hverdicts : ∀ b ∈ bindings, b.scope.same scope = true →
      Settles known (b.name.reachability (check context) (some scope) origin) calls (verdicts b))
    {s : Session} (hs : known s) :
    ∃ kept t, known t ∧ Bindings.Descending kept ∧
      (∀ b, b ∈ kept ↔ b ∈ bindings ∧ Candidate view limit b ∧
        countedVerdict scope verdicts b ≠ .unreachable ∧
        (∀ later ∈ bindings, Candidate view limit later → b.name.start < later.name.start →
          ¬ Certain scope verdicts later) ∧
        view.isAccessible scope origin b = true) ∧
      ∀ other, other.Perm bindings →
        Bindings.select (bindingVerdict context scope origin) view.isVisible
          (view.isAccessible scope origin) limit other calls s = (.ok kept, t) := by
  let candidate (b : Binding) : Bool := view.isVisible b && limit.all b.name.start.before
  let sorted := (bindings.filter candidate).mergeSort Binding.isNoEarlier
  have hcandidates : Bindings.Apart (bindings.filter candidate) := hapart.filter candidate
  have hsorted : Bindings.Descending sorted := Bindings.descending_mergeSort hcandidates
  have hmem : ∀ b, b ∈ sorted ↔ b ∈ bindings ∧ Candidate view limit b := by
    intro b
    rw [mem_mergeSort, mem_filter, isCandidate_iff]
  have hsettles : Settles known (Bindings.takeReached (bindingVerdict context scope origin) sorted)
      calls (Bindings.mayHold (countedVerdict scope verdicts) sorted) :=
    settles_takeReached fun b hb => settles_bindingVerdict (hverdicts b ((hmem b).mp hb).1)
  obtain ⟨t, hrun, ht⟩ := hsettles s hs
  refine ⟨(Bindings.mayHold (countedVerdict scope verdicts) sorted).filter
    (view.isAccessible scope origin), t, ht, ?_, fun b => ?_, fun other hperm => ?_⟩
  · exact hsorted.sublist (filter_sublist.trans (Bindings.mayHold_sublist _ sorted))
  · rw [mem_filter, Bindings.mem_mayHold hsorted, hmem]
    simp only [hmem, and_imp, Ne, countedVerdict_eq_reachable, and_assoc]
  · have hsame : (other.filter candidate).mergeSort Binding.isNoEarlier = sorted :=
      Bindings.mergeSort_eq_of_perm hcandidates (hperm.filter candidate)
    rw [Bindings.select, hsame, bind_of_ok hrun]
    rfl

/-- A binding of a name on a line, in the module with a number. -/
def bindingOn (line module : Nat) : Binding where
  name := { tree := 0, node := .mk ⟨⟨line, 1⟩, ⟨line, 2⟩⟩ .store (.name "x") }
  id := "x"
  definition := default
  kind := .assignment
  scope := { tree := module, node := default }

/-- The last binding belongs to another module and hides nothing, the second hides the first. -/
theorem select_exact_three :
    let module : Place := { tree := 0, node := default }
    let bindings := [bindingOn 1 0, bindingOn 3 1, bindingOn 2 0]
    ∃ kept t, Bindings.select (bindingVerdict 0 module none) ScopeView.plain.isVisible
        (ScopeView.plain.isAccessible module none) none bindings (engine 0) {} = (.ok kept, t) ∧
      bindingOn 3 1 ∈ kept ∧ bindingOn 2 0 ∈ kept ∧ bindingOn 1 0 ∉ kept := by
  intro module bindings
  have hapart : Bindings.Apart bindings := by
    simp [bindings, Bindings.Apart, bindingOn, Place.start, Node.start, Node.span]
  have hcases : ∀ b ∈ bindings, b = bindingOn 1 0 ∨ b = bindingOn 3 1 ∨ b = bindingOn 2 0 := by
    simp [bindings]
  have hverdicts : ∀ b ∈ bindings, b.scope.same module = true → Settles (fun _ => True)
      (b.name.reachability (check 0) (some module) none) (engine 0) .reachable := by
    intro b hb _ s hs
    rcases hcases b hb with rfl | rfl | rfl
    all_goals exact ⟨s, rfl, hs⟩
  obtain ⟨kept, t, -, -, hmem, hrun⟩ :=
    select_exact 0 module none .plain none hapart hverdicts (s := {}) trivial
  have hcandidate : ∀ b, Candidate .plain none b := fun b => ⟨rfl, nofun⟩
  refine ⟨kept, t, hrun bindings (.refl _), (hmem _).mpr ?_, (hmem _).mpr ?_, fun h => ?_⟩
  · refine ⟨by simp [bindings], hcandidate _, by decide, fun later hlater _ hlt => ?_, rfl⟩
    rcases hcases later hlater with rfl | rfl | rfl <;> exact absurd hlt (by decide)
  · refine ⟨by simp [bindings], hcandidate _, by decide, fun later hlater _ hlt => ?_, rfl⟩
    rcases hcases later hlater with rfl | rfl | rfl
    · exact absurd hlt (by decide)
    · rintro ⟨-, -, hsame⟩
      cases hsame
    · exact absurd hlt (by decide)
  · obtain ⟨-, -, -, hhidden, -⟩ := (hmem _).mp h
    exact hhidden (bindingOn 2 0) (by simp [bindings]) (hcandidate _) (by decide) ⟨rfl, rfl, rfl⟩

end Selection

end Infer

end NameInference

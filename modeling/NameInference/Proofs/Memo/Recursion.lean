import Mathlib.Data.Nat.Fib.Basic
import Mathlib.Order.WellFounded
import NameInference.Proofs.Memo.Entries

/-!
# Remembering agrees with recursion

A plan computes the answer of a question from the answers of others. If no chain of questions goes
on for ever, every question has an answer by recursion alone. A memo that is asked instead, for any
questions in any order, gives the same answers, and no question ever comes back to itself.
-/

namespace NameInference

/-- A computation that asks for answers, each with a fallback, and goes on with what it gets. -/
inductive Plan (κ : Type) (β : κ → Type) (α : Type) where
  | give (a : α)
  | ask (key : κ) (fallback : β key) (next : β key → Plan κ β α)

namespace Plan

variable {κ : Type} {β : κ → Type} {α : Type}

/-- The plan may ask for the question. -/
inductive Asks : Plan κ β α → κ → Prop where
  | here {key : κ} {fallback : β key} {next : β key → Plan κ β α} :
    Asks (.ask key fallback next) key
  | later {key q : κ} {fallback : β key} {next : β key → Plan κ β α} (a : β key)
      (h : Asks (next a) q) : Asks (.ask key fallback next) q

/-- The result of a plan that gets the given answers. -/
def result : (plan : Plan κ β α) → ((q : κ) → plan.Asks q → β q) → α
  | give a, _ => a
  | ask key _ next, answers => (next (answers key .here)).result fun q h => answers q (.later _ h)

/-- Carries a plan out, where `request` asks for answers. -/
def carryOut {m : Type → Type} [Monad m] :
    (plan : Plan κ β α) → ((q : κ) → plan.Asks q → β q → m (β q)) → m α
  | give a, _ => pure a
  | ask key fallback next, request => do
    let a ← request key .here fallback
    (next a).carryOut fun q h => request q (.later a h)

end Plan

section Recursion

variable {κ : Type} {β : κ → Type} {ε : Type} (plans : (key : κ) → Plan κ β (β key))

/-- The first question may be asked for by the plan of the second one. -/
def RequestedBy (q key : κ) : Prop := (plans key).Asks q

variable (acyclic : WellFounded (RequestedBy plans))

include acyclic in
/-- No question depends on itself. -/
theorem not_requestedBy_of_reflTransGen {q key : κ}
    (h : Relation.ReflTransGen (RequestedBy plans) key q) :
    ¬ RequestedBy plans q key := by
  intro hrequested
  have hcycle : Relation.TransGen (RequestedBy plans) key key := .tail' h hrequested
  exact acyclic.transGen.irrefl.irrefl key hcycle

/-- The answer by recursion alone: every plan that is asked for is carried out again. -/
def recursiveAnswer : (key : κ) → β key :=
  acyclic.fix fun key answers => (plans key).result answers

theorem recursiveAnswer_eq (key : κ) :
    recursiveAnswer plans acyclic key = (plans key).result fun q _ =>
      recursiveAnswer plans acyclic q :=
  acyclic.fix_eq _ key

variable [BEq κ] [Hashable κ] [LawfulBEq κ]

/-- A memo that is the whole state. -/
def MemoSlot.whole : MemoSlot (Memo κ β) κ β := ⟨id, fun f memo => f memo⟩

/-- The answer of a memo, whose plans ask the same memo. -/
def rememberedAnswer (recovers : ε → Bool) :
    (key : κ) → β key → ExceptT ε (StateM (Memo κ β)) (β key) :=
  acyclic.fix fun key request fallback => MemoSlot.whole.answer recovers key fallback
    ((plans key).carryOut request)

theorem rememberedAnswer_eq (recovers : ε → Bool) (key : κ) (fallback : β key) :
    rememberedAnswer plans acyclic recovers key fallback =
      MemoSlot.whole.answer recovers key fallback
        ((plans key).carryOut fun q _ => rememberedAnswer plans acyclic recovers q) := by
  rw [rememberedAnswer, acyclic.fix_eq]
  rfl

/-- The answers to requests one after the other, each with its question. -/
def rememberedAnswers (recovers : ε → Bool) (requests : List ((key : κ) × β key)) :
    ExceptT ε (StateM (Memo κ β)) (List ((key : κ) × β key)) :=
  requests.mapM fun request => do
    return ⟨request.1, ← rememberedAnswer plans acyclic recovers request.1 request.2⟩

variable {plans acyclic} {recovers : ε → Bool}

/-- Every recorded answer is the one that recursion gives. -/
def Memo.Right (plans : (key : κ) → Plan κ β (β key)) (acyclic : WellFounded (RequestedBy plans))
    (memo : Memo κ β) :
    Prop :=
  ∀ key a, memo.find? key = some (.done a) → a = recursiveAnswer plans acyclic key

/-- The step gives the result and keeps what is recorded right. The same questions are being
computed behind it, and none of them was asked for meanwhile. -/
def GivesRight {α : Type} (plans : (key : κ) → Plan κ β (β key))
    (acyclic : WellFounded (RequestedBy plans)) (step : ExceptT ε (StateM (Memo κ β)) α)
    (memo : Memo κ β) (a : α) : Prop :=
  ∃ memo', step memo = (.ok a, memo') ∧ memo'.Right plans acyclic ∧
    (∀ q, memo'.isRunning q = memo.isRunning q) ∧ memo'.trips = memo.trips

theorem givesRight_pure {α : Type} {memo : Memo κ β} (h : memo.Right plans acyclic) (a : α) :
    GivesRight (ε := ε) plans acyclic (pure a) memo a :=
  ⟨memo, rfl, h, fun _ => rfl, rfl⟩

theorem GivesRight.bind {α γ : Type} {step : ExceptT ε (StateM (Memo κ β)) α}
    {next : α → ExceptT ε (StateM (Memo κ β)) γ} {memo : Memo κ β} {a : α} {b : γ}
    (h : GivesRight plans acyclic step memo a)
    (hnext : ∀ memo' : Memo κ β, memo'.Right plans acyclic →
      (∀ q, memo'.isRunning q = memo.isRunning q) → GivesRight plans acyclic (next a) memo' b) :
    GivesRight plans acyclic (step >>= next) memo b := by
  obtain ⟨memo', hstep, hright, hrunning, htrips⟩ := h
  obtain ⟨memo'', hrest, hright', hrunning', htrips'⟩ := hnext memo' hright hrunning
  refine ⟨memo'', ?_, hright', fun q => (hrunning' q).trans (hrunning q), htrips'.trans htrips⟩
  change (match step memo with | (outcome, memo') => ExceptT.bindCont next outcome memo') = _
  rw [hstep]
  exact hrest

/-- Carrying out a plan gives its result if all that it asks for is given right. -/
theorem givesRight_carryOut {α : Type} (plan : Plan κ β α)
    {request : (q : κ) → plan.Asks q → β q → ExceptT ε (StateM (Memo κ β)) (β q)} {memo : Memo κ β}
    (hmemo : memo.Right plans acyclic)
    (hrequest : ∀ q h fallback, ∀ memo' : Memo κ β, memo'.Right plans acyclic →
      (∀ q, memo'.isRunning q = memo.isRunning q) →
      GivesRight plans acyclic (request q h fallback) memo' (recursiveAnswer plans acyclic q)) :
    GivesRight plans acyclic (plan.carryOut request) memo
      (plan.result fun q _ => recursiveAnswer plans acyclic q) := by
  induction plan generalizing memo with
  | give a => exact givesRight_pure hmemo a
  | ask key fallback next ih =>
    refine (hrequest key .here fallback memo hmemo fun _ => rfl).bind fun memo' hmemo' hsame => ?_
    exact ih _ hmemo' fun q h fallback memo'' hmemo'' hsame' =>
      hrequest q (.later _ h) fallback memo'' hmemo'' fun q => (hsame' q).trans (hsame q)

theorem Memo.Right.start {memo : Memo κ β} (h : memo.Right plans acyclic) (key : κ)
    (sofar : Option (β key)) :
    (memo.start key sofar).Right plans acyclic := by
  intro q a hfound
  by_cases hq : q = key
  · subst hq
    rw [find?_start_self] at hfound
    cases hfound
  · rw [find?_start_of_ne hq] at hfound
    exact h q a hfound

theorem Memo.Right.finish {memo : Memo κ β} (h : memo.Right plans acyclic) (key : κ) :
    (memo.finish key (recursiveAnswer plans acyclic key)).Right plans acyclic := by
  intro q a hfound
  by_cases hq : q = key
  · subst hq
    rw [find?_finish_self] at hfound
    cases hfound
    rfl
  · rw [find?_finish_of_ne hq] at hfound
    exact h q a hfound

/-- A question that no question under way is needed for is answered right. -/
theorem givesRight_rememberedAnswer (key : κ) :
    ∀ (fallback : β key) (memo : Memo κ β), memo.Right plans acyclic →
      (∀ q, memo.isRunning q = true → ¬ Relation.ReflTransGen (RequestedBy plans) q key) →
      GivesRight plans acyclic (rememberedAnswer plans acyclic recovers key fallback) memo
        (recursiveAnswer plans acyclic key) := by
  induction key using acyclic.induction with
  | _ key ih =>
    intro fallback memo hmemo hfree
    rw [rememberedAnswer_eq]
    cases hfound : memo.find? key with
    | some entry =>
      cases entry with
      | done a =>
        cases hmemo key a hfound
        exact ⟨memo.hit, MemoSlot.answer_of_done hfound, hmemo, fun _ => rfl, rfl⟩
      | running sofar => exact absurd .refl (hfree key (Memo.isRunning_iff.mpr ⟨sofar, hfound⟩))
    | none =>
      -- What the plan asks for is below the question, so it needs neither the question nor what is
      -- under way.
      have hfree' : ∀ q, RequestedBy plans q key → ∀ r, (memo.start key none).isRunning r = true →
          ¬ Relation.ReflTransGen (RequestedBy plans) r q := by
        intro q hq r hr hneeds
        rcases Memo.isRunning_start.mp hr with rfl | hr
        · exact not_requestedBy_of_reflTransGen plans acyclic hneeds hq
        · exact hfree r hr (hneeds.tail hq)
      obtain ⟨memo', hrun, hright, hrunning, htrips⟩ :=
        givesRight_carryOut (plans key) (hmemo.start key none)
        fun q hq fallback memo' hmemo' hsame =>
          ih q hq fallback memo' hmemo' fun r hr => hfree' q hq r ((hsame r).symm.trans hr)
      rw [← recursiveAnswer_eq] at hrun
      refine ⟨_, MemoSlot.answer_of_ok hfound hrun, hright.finish key, fun q => ?_, htrips⟩
      change (memo'.finish key _).isRunning q = _
      rw [Bool.eq_iff_iff, Memo.isRunning_finish, hrunning, Memo.isRunning_start]
      constructor
      · rintro ⟨hne, heq | hq⟩
        · exact absurd heq hne
        · exact hq
      · intro hq
        refine ⟨?_, Or.inr hq⟩
        rintro rfl
        obtain ⟨sofar, hsofar⟩ := Memo.isRunning_iff.mp hq
        cases hfound.symm.trans hsofar

/-- Requests one after the other are answered right if no question is under way. -/
theorem givesRight_rememberedAnswers (requests : List ((key : κ) × β key)) {memo : Memo κ β}
    (hmemo : memo.Right plans acyclic) (hidle : ∀ q, memo.isRunning q = false) :
    GivesRight plans acyclic (rememberedAnswers plans acyclic recovers requests) memo
      (requests.map fun request => ⟨request.1, recursiveAnswer plans acyclic request.1⟩) := by
  induction requests generalizing memo with
  | nil => exact givesRight_pure hmemo []
  | cons request requests ih =>
    have hfirst : GivesRight plans acyclic
      (rememberedAnswer plans acyclic recovers request.1 request.2) memo
        (recursiveAnswer plans acyclic request.1) :=
      givesRight_rememberedAnswer request.1 request.2 memo hmemo (by simp [hidle])
    rw [rememberedAnswers, List.mapM_cons, bind_assoc]
    refine hfirst.bind fun memo' hmemo' hsame => ?_
    rw [pure_bind]
    have hrest := ih hmemo' fun q => (hsame q).trans (hidle q)
    exact hrest.bind fun _ hmemo'' _ => givesRight_pure hmemo'' _

/-- Requests in any order and with any fallbacks are answered as by recursion, and none comes back
to itself. -/
theorem rememberedAnswers_eq_recursive (recovers : ε → Bool) (plans : (key : κ) → Plan κ β (β key))
    (acyclic : WellFounded (RequestedBy plans)) (requests : List ((key : κ) × β key)) :
    ∃ memo, rememberedAnswers plans acyclic recovers requests {} =
        (.ok (requests.map fun request => ⟨request.1, recursiveAnswer plans acyclic request.1⟩),
          memo) ∧ memo.trips = 0 := by
  have hempty : ({} : Memo κ β).Right plans acyclic := by simp [Memo.Right]
  obtain ⟨memo, hrun, -, -, htrips⟩ :=
    givesRight_rememberedAnswers requests hempty (by simp [Memo.isRunning])
  exact ⟨memo, hrun, htrips⟩

end Recursion

namespace Plan

/-- Every number asks for the two before it. -/
def fibonacci : Nat → Plan Nat (fun _ => Nat) Nat
  | 0 => .give 0
  | 1 => .give 1
  | n + 2 => .ask (n + 1) 0 fun a => .ask n 0 fun b => .give (b + a)

theorem lt_of_requestedBy_fibonacci {q n : Nat} (h : RequestedBy fibonacci q n) : q < n := by
  unfold RequestedBy at h
  match n with
  | 0 | 1 => cases h
  | n + 2 =>
    cases h with
    | here => omega
    | later _ h =>
      cases h with
      | here => omega
      | later _ h => cases h

theorem wellFounded_fibonacci : WellFounded (RequestedBy fibonacci) :=
  Subrelation.wf lt_of_requestedBy_fibonacci Nat.lt_wfRel.wf

theorem recursiveAnswer_fibonacci (n : Nat) :
    recursiveAnswer fibonacci wellFounded_fibonacci n = n.fib := by
  induction n using Nat.twoStepInduction with
  | zero => rw [recursiveAnswer_eq]; rfl
  | one => rw [recursiveAnswer_eq]; rfl
  | more n ih ih' =>
    rw [recursiveAnswer_eq, Nat.fib_add_two, ← ih, ← ih']
    rfl

end Plan

theorem rememberedAnswers_eq_recursive_fibonacci :
    ∃ memo, rememberedAnswers (ε := Unit) Plan.fibonacci Plan.wellFounded_fibonacci (fun _ => true)
        [⟨4, 9⟩, ⟨7, 0⟩, ⟨4, 1⟩] {} = (.ok [⟨4, 3⟩, ⟨7, 13⟩, ⟨4, 3⟩], memo) ∧ memo.trips = 0 := by
  have h := rememberedAnswers_eq_recursive (fun _ : Unit => true) Plan.fibonacci
    Plan.wellFounded_fibonacci [⟨4, 9⟩, ⟨7, 0⟩, ⟨4, 1⟩]
  have hfour : Nat.fib 4 = 3 := rfl
  have hseven : Nat.fib 7 = 13 := rfl
  simpa only [List.map_cons, List.map_nil, Plan.recursiveAnswer_fibonacci, hfour, hseven] using h

end NameInference

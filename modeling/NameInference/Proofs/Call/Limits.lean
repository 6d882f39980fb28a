import Mathlib.Tactic.SplitIfs
import Mathlib.Order.Lattice
import Mathlib.Algebra.Order.Ring.Int
import NameInference.CallGuard

/-!
# The bounds on executions hold on every run

A guard is asked about one execution after another, and told when the innermost one ends. However
these calls are mixed, the executions that it lets run stay within its four limits. A call that a
later limit refuses has used up what the earlier ones count, so the counters may be ahead of the
executions that ran, but never behind.
-/

namespace NameInference

/-- A call of a guard: an execution begins, or the innermost one ends. -/
inductive GuardCall (φ : Type) where
  | push (function : φ) (exempt : Bool)
  | pop
  deriving DecidableEq

namespace GuardCall

variable {φ : Type}

/-- The executions under way after a call, innermost first. -/
def onStack (stack : List φ) : GuardCall φ → List φ
  | push function _ => function :: stack
  | pop => stack.tail

/-- The executions that have begun and not ended after some calls. -/
def underWay (calls : List (GuardCall φ)) : List φ := calls.foldl onStack []

end GuardCall

/-- A call with the guard before and after it, and whether the execution has to be skipped. -/
structure GuardEntry (φ : Type) [BEq φ] [Hashable φ] where
  call : GuardCall φ
  before : CallGuard φ
  skipped : Bool
  after : CallGuard φ

namespace GuardEntry

variable {φ : Type} [BEq φ] [Hashable φ]

/-- A counted execution that is let run. -/
def isStart (entry : GuardEntry φ) : Bool :=
  match entry.call with
  | .push _ exempt => !exempt && !entry.skipped
  | .pop => false

/-- A counted execution of a function that is let run. -/
def starts (function : φ) (entry : GuardEntry φ) : Bool :=
  match entry.call with
  | .push f exempt => f == function && !exempt && !entry.skipped
  | .pop => false

theorem exists_of_starts {function : φ} {entry : GuardEntry φ} (h : entry.starts function) :
    ∃ f, entry.call = .push f false ∧ (f == function) = true ∧ entry.skipped = false := by
  unfold starts at h
  split at h
  case h_1 f exempt hcall => exact ⟨f, by simp_all⟩
  case h_2 => cases h

end GuardEntry

namespace CallGuard

variable {φ : Type} [BEq φ] [Hashable φ]

/-- How often executions of a function were counted. -/
def counted (guard : CallGuard φ) (function : φ) : Nat := guard.perFunction.getD function 0

/-- What a guard does at a call. -/
def respond (limits : CallLimits) (guard : CallGuard φ) (call : GuardCall φ) : GuardEntry φ :=
  match call with
  | .push function exempt =>
    let (skipped, after) := guard.push limits function exempt
    ⟨call, guard, skipped, after⟩
  | .pop => ⟨call, guard, false, guard.pop⟩

/-- What a guard does at some calls in turn. -/
def record (limits : CallLimits) (guard : CallGuard φ) : List (GuardCall φ) → List (GuardEntry φ)
  | [] => []
  | call :: rest =>
    let entry := guard.respond limits call
    entry :: record limits entry.after rest

/-- The execution is on top of the stack, one level further down. -/
structure Entered (guard : CallGuard φ) (function : φ) (after : CallGuard φ) : Prop where
  active_eq : after.active = function :: guard.active
  depth_eq : after.depth = guard.depth + 1

/-- What a guard can do at the beginning of an execution. -/
inductive Pushed (limits : CallLimits) (guard : CallGuard φ) (function : φ) :
    Bool → GuardEntry φ → Prop
  | exempt {after : CallGuard φ} (entered : guard.Entered function after)
      (started : after.started = guard.started)
        (perFunction : after.perFunction = guard.perFunction) :
      Pushed limits guard function true ⟨.push function true, guard, false, after⟩
  | refused {after : CallGuard φ} (entered : guard.Entered function after)
      (started : after.started = guard.started)
        (perFunction : after.perFunction = guard.perFunction)
      (full : limits.nesting < guard.depth + 1 ∨ limits.total ≤ guard.started) :
      Pushed limits guard function false ⟨.push function false, guard, true, after⟩
  | usedUp {after : CallGuard φ} (entered : guard.Entered function after)
      (started : after.started = guard.started + 1)
        (perFunction : after.perFunction = guard.perFunction)
      (free : guard.started < limits.total) (full : limits.perFunction ≤ guard.counted function) :
      Pushed limits guard function false ⟨.push function false, guard, true, after⟩
  | counted {skipped : Bool} {after : CallGuard φ} (entered : guard.Entered function after)
      (started : after.started = guard.started + 1)
      (perFunction : after.perFunction = guard.perFunction.insert function
        (guard.counted function + 1))
      (nesting : guard.depth + 1 ≤ limits.nesting) (free : guard.started < limits.total)
      (freeHere : guard.counted function < limits.perFunction)
      (skips : skipped = decide (limits.perFunctionNesting < after.active.count function)) :
      Pushed limits guard function false ⟨.push function false, guard, skipped, after⟩

variable (limits : CallLimits) (guard : CallGuard φ)

theorem pushed_respond (function : φ) (exempt : Bool) :
    Pushed limits guard function exempt (guard.respond limits (.push function exempt)) := by
  cases exempt with
  | true => exact .exempt ⟨rfl, rfl⟩ rfl rfl
  | false =>
    rcases hpush : guard.push limits function false with ⟨skipped, after⟩
    have hentry : guard.respond limits (.push function false) =
        ⟨.push function false, guard, skipped, after⟩ := by
      simp only [respond, hpush]
    rw [hentry]
    simp only [push, Bool.false_eq_true, if_false] at hpush
    split_ifs at hpush with hnesting htotal hcount <;> cases hpush
    · exact .refused ⟨rfl, rfl⟩ rfl rfl (.inl hnesting)
    · exact .refused ⟨rfl, rfl⟩ rfl rfl (.inr htotal)
    · exact .usedUp ⟨rfl, rfl⟩ rfl rfl (not_le.mp htotal) hcount
    · exact .counted ⟨rfl,
        rfl⟩ rfl rfl (not_lt.mp hnesting) (not_le.mp htotal) (not_le.mp hcount) rfl

variable {limits} {guard} in
theorem Pushed.entered {function : φ} {exempt : Bool} {entry : GuardEntry φ}
    (h : Pushed limits guard function exempt entry) : guard.Entered function entry.after := by
  cases h <;> assumption

@[simp] theorem respond_call (call : GuardCall φ) : (guard.respond limits call).call = call := by
  cases call <;> rfl

/-- The stack is what the calls make it, whatever the limits. -/
theorem respond_active (call : GuardCall φ) :
    (guard.respond limits call).after.active = call.onStack guard.active := by
  cases call with
  | push function exempt => exact (pushed_respond limits guard function exempt).entered.active_eq
  | pop => rfl

/-- The depth and the stack are kept apart, but what is the number of executions on the stack stays
so. -/
theorem respond_depth (h : guard.depth = guard.active.length) (call : GuardCall φ) :
    (guard.respond limits call).after.depth = (guard.respond limits call).after.active.length := by
  cases call with
  | push function exempt =>
    have hentered := (pushed_respond limits guard function exempt).entered
    rw [hentered.depth_eq, hentered.active_eq, h, List.length_cons]
  | pop => simp [respond, pop, h]

section Counters

variable {limits} {guard}

/-- A call that is let run is counted, and nothing is counted beyond the limit. -/
theorem respond_started (h : (guard.started : Int) ≤ max 0 limits.total) (call : GuardCall φ) :
    let entry := guard.respond limits call
    entry.isStart.toNat + guard.started ≤ entry.after.started ∧ (entry.after.started : Int) ≤
      max 0 limits.total := by
  cases call with
  | push function exempt =>
    have hpushed := pushed_respond limits guard function exempt
    generalize guard.respond limits (.push function exempt) = entry at hpushed
    cases hpushed with
    | exempt _ started => simpa [GuardEntry.isStart, started] using h
    | refused _ started => simpa [GuardEntry.isStart, started] using h
    | usedUp _ started _ free =>
      simp only [GuardEntry.isStart, started, Bool.not_true, Bool.and_false, Bool.toNat_false]
      omega
    | @counted skipped _ _ started _ _ free =>
      have := Bool.toNat_le !skipped
      simp only [GuardEntry.isStart, started, Bool.not_false, Bool.true_and]
      omega
  | pop => simpa [respond, pop, GuardEntry.isStart] using h

/-- Of each function too: a call that is let run is counted, and nothing is counted beyond the
limit. -/
theorem respond_counted [LawfulBEq φ] {function : φ}
    (h : (guard.counted function : Int) ≤ max 0 limits.perFunction) (call : GuardCall φ) :
    let entry := guard.respond limits call
    (entry.starts function).toNat + guard.counted function ≤ entry.after.counted function ∧
      (entry.after.counted function : Int) ≤ max 0 limits.perFunction := by
  cases call with
  | push f exempt =>
    have hpushed := pushed_respond limits guard f exempt
    generalize guard.respond limits (.push f exempt) = entry at hpushed
    cases hpushed with
    | exempt _ _ perFunction => simpa [GuardEntry.starts, counted, perFunction] using h
    | refused _ _ perFunction => simpa [GuardEntry.starts, counted, perFunction] using h
    | usedUp _ _ perFunction => simpa [GuardEntry.starts, counted, perFunction] using h
    | @counted skipped after _ _ perFunction _ _ free =>
      by_cases hf : f = function
      · subst hf
        have hafter : after.counted f = guard.counted f + 1 := by
          rw [counted, perFunction, Std.HashMap.getD_insert_self]
        have := Bool.toNat_le !skipped
        simp only [GuardEntry.starts, hafter, BEq.rfl, Bool.not_false, Bool.true_and]
        omega
      · have hafter : after.counted function = guard.counted function := by
          rw [counted, perFunction, Std.HashMap.getD_insert]
          simp [hf, counted]
        simpa [GuardEntry.starts, beq_eq_false_iff_ne.mpr hf, hafter] using h
  | pop => simpa [respond, pop, counted, GuardEntry.starts] using h

end Counters

/-- What is counted for each call that is let run, and never beyond a bound, bounds these calls on
the whole run. -/
theorem countP_record_le {lets : GuardEntry φ → Bool} {count : CallGuard φ → Nat} {bound : Int}
    (step : ∀ (guard : CallGuard φ) (call : GuardCall φ), (count guard : Int) ≤ bound →
      (lets (guard.respond limits call)).toNat + count guard ≤
        count (guard.respond limits call).after ∧
      (count (guard.respond limits call).after : Int) ≤ bound) (calls : List (GuardCall φ))
    (h : (count guard : Int) ≤ bound) :
    ((guard.record limits calls).countP lets + count guard : Int) ≤ bound := by
  induction calls generalizing guard with
  | nil => simpa [record] using h
  | cons call rest ih =>
    obtain ⟨hcount, hle⟩ := step guard call h
    have hrest := ih _ hle
    simp only [record, List.countP_cons]
    cases hlets : lets (guard.respond limits call) with
    | false =>
      simp only [hlets, Bool.toNat_false] at hcount
      simp only [Bool.false_eq_true, if_false]
      omega
    | true =>
      simp only [hlets, Bool.toNat_true] at hcount
      simp only [if_true]
      omega

/-- Every recorded beginning of an execution is one of the things that a guard can do there. -/
theorem pushed_of_mem_record {calls : List (GuardCall φ)} {entry : GuardEntry φ} {function : φ}
    {exempt : Bool} (h : entry ∈ guard.record limits calls)
    (hcall : entry.call = .push function exempt) :
    Pushed limits entry.before function exempt entry := by
  induction calls generalizing guard with
  | nil => simp [record] at h
  | cons call rest ih =>
    rcases List.mem_cons.mp h with rfl | h
    · obtain rfl : call = .push function exempt := by simpa using hcall
      exact pushed_respond limits guard function exempt
    · exact ih _ h

theorem map_call_record (calls : List (GuardCall φ)) :
    (guard.record limits calls).map GuardEntry.call = calls := by
  induction calls generalizing guard with
  | nil => rfl
  | cons call rest ih => simp [record, ih]

/-- The stack at each entry of a record, from the calls so far. -/
theorem active_of_getElem?_record {calls : List (GuardCall φ)} {i : Nat} {entry : GuardEntry φ}
    (h : (guard.record limits calls)[i]? = some entry) :
    entry.after.active = (calls.take (i + 1)).foldl GuardCall.onStack guard.active := by
  induction calls generalizing guard i with
  | nil => simp [record] at h
  | cons call rest ih =>
    cases i with
    | zero =>
      obtain rfl : guard.respond limits call = entry := by simpa [record] using h
      simp [respond_active]
    | succ i =>
      rw [ih _ (by simpa [record] using h), respond_active, List.take_succ_cons, List.foldl_cons]

/-- So is the depth the number of executions on the stack at each entry, if it is so at the
beginning. -/
theorem depth_of_mem_record {calls : List (GuardCall φ)} {entry : GuardEntry φ}
    (hguard : guard.depth = guard.active.length) (h : entry ∈ guard.record limits calls) :
    entry.after.depth = entry.after.active.length := by
  induction calls generalizing guard with
  | nil => simp [record] at h
  | cons call rest ih =>
    have hcall := respond_depth limits guard hguard call
    rcases List.mem_cons.mp h with rfl | h
    · exact hcall
    · exact ih _ hcall h

/-- What a run of a guard shows within its limits. -/
structure Within (limits : CallLimits) (calls : List (GuardCall φ)) (log : List (GuardEntry φ)) :
    Prop where
  /-- Every call is recorded. -/
  calls_eq : log.map GuardEntry.call = calls
  /-- The stack holds the executions that have begun and not ended, and the depth is their number.
  -/
  active_eq : ∀ {i entry}, log[i]? = some entry →
    entry.after.active = GuardCall.underWay (calls.take (i + 1)) ∧
      entry.after.depth = (GuardCall.underWay (calls.take (i + 1))).length
  /-- The executions that are let run stay within the total limit. -/
  total : (log.countP GuardEntry.isStart : Int) ≤ max 0 limits.total
  /-- Those of each function stay within the limit for one function. -/
  perFunction : ∀ function, (log.countP (GuardEntry.starts function) : Int) ≤
    max 0 limits.perFunction
  /-- Each of them is nested within the limits, also among the executions of its function. -/
  nesting : ∀ {entry function}, entry ∈ log → entry.starts function →
    (entry.after.depth : Int) ≤ limits.nesting ∧
      (entry.after.active.count function : Int) ≤ limits.perFunctionNesting
  /-- Exempt executions are let run and not counted. -/
  exempt : ∀ {entry function}, entry ∈ log → entry.call = .push function true →
    entry.skipped = false ∧ entry.after.started = entry.before.started ∧
      entry.after.perFunction = entry.before.perFunction
  /-- An execution is skipped only at a limit that is reached. -/
  skipped : ∀ {entry function exempt}, entry ∈ log → entry.call = .push function exempt →
    entry.skipped → limits.nesting < entry.after.depth ∨ limits.total ≤ entry.before.started ∨
      limits.perFunction ≤ entry.before.counted function ∨
        limits.perFunctionNesting < entry.after.active.count function

/-- Every run of a guard, from its beginning, is within its limits. -/
theorem record_within [LawfulBEq φ] (calls : List (GuardCall φ)) :
    Within limits calls (record limits (default : CallGuard φ) calls) where
  calls_eq := map_call_record limits default calls
  active_eq h := by
    have hactive := active_of_getElem?_record limits default h
    exact ⟨hactive,
      (depth_of_mem_record limits default rfl (List.mem_of_getElem? h)).trans (congrArg _ hactive)⟩
  total := countP_record_le limits default (fun _ call h => respond_started h call) calls
    (le_max_left 0 _)
  perFunction function := by
    have hnone : (default : CallGuard φ).counted function = 0 := Std.HashMap.getD_empty
    have hfree : ((default : CallGuard φ).counted function : Int) ≤ max 0 limits.perFunction := by
      rw [hnone]
      exact le_max_left 0 _
    have hstep : ∀ (guard : CallGuard φ) call, (guard.counted function : Int) ≤
      max 0 limits.perFunction → _ :=
      fun _ call h => respond_counted h call
    simpa [hnone] using countP_record_le limits default hstep calls hfree
  nesting := by
    rintro ⟨call, before, skipped, after⟩ function hentry hstarts
    obtain ⟨f, rfl, hf, rfl⟩ := GuardEntry.exists_of_starts hstarts
    obtain rfl := eq_of_beq hf
    have hpushed : Pushed limits before f false _ := pushed_of_mem_record limits default hentry rfl
    cases hpushed with
    | counted entered _ _ nesting _ _ skips =>
      refine ⟨?_, not_lt.mp (of_decide_eq_false skips.symm)⟩
      rw [entered.depth_eq]
      exact nesting
  exempt := by
    rintro ⟨call, before, skipped, after⟩ function hentry rfl
    cases pushed_of_mem_record limits default hentry rfl with
    | exempt _ started perFunction => exact ⟨rfl, started, perFunction⟩
  skipped := by
    rintro ⟨call, before, skipped, after⟩ function exempt hentry rfl hskipped
    have hpushed : Pushed limits before function exempt _ :=
      pushed_of_mem_record limits default hentry rfl
    cases hpushed with
    | exempt => cases hskipped
    | refused entered _ _ full =>
      rw [entered.depth_eq]
      exact full.imp id .inl
    | usedUp _ _ _ _ full => exact .inr (.inr (.inl full))
    | counted _ _ _ _ _ _ skips =>
      exact .inr (.inr (.inr (of_decide_eq_true (skips.symm.trans hskipped))))

/-- The second execution of a function inside its first one uses up the total, so that the last one
is refused; an exempt one still runs. -/
theorem record_within_nested :
    let limits : CallLimits := ⟨3, 3, 6, 1⟩
    let calls : List (GuardCall Nat) :=
      [.push 0 false, .push 0 false, .pop, .push 1 false, .pop, .pop, .push 2 false, .push 2 true]
    Within limits calls (record limits default calls) ∧
      (record limits default calls).map GuardEntry.skipped =
        [false, true, false, false, false, false, true, false] :=
  ⟨record_within _ _, by simp [record, respond, push, pop, default, Std.HashMap.getD_insert]⟩

end CallGuard

end NameInference

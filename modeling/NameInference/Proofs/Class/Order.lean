import Mathlib.Data.List.Perm.Subperm
import NameInference.Proofs.Except
import NameInference.Proofs.Inference.Answers
import NameInference.Proofs.Session.Loading

/-!
# Orders of classes

Whatever a session was asked before, the order of a class is collected and stays as it is, unless
the bases of a class cannot be found. Orders that are collected inside each other belong to
different classes, so they are not nested more deeply than there are values.
-/

namespace NameInference

open List

namespace Session

variable {s t : Session} {cls : ValueId} {stack : List ValueId}

/-- The orders of different classes are being collected. -/
structure Nested (s : Session) (stack : List ValueId) : Prop where
  nodup : stack.Nodup
  running : ∀ c ∈ stack, s.memo.isRunning (.order c) = true
  isClass : ∀ c ∈ stack, s.values.isClass c = true

theorem Nested.evolves (h : s.Nested stack) (hevolves : s.Evolves t) : t.Nested stack where
  nodup := h.nodup
  running c hc := (hevolves.running _).trans (h.running c hc)
  isClass c hc := Values.isClass_of_keeps (h.isClass c hc) hevolves.values

/-- A new order belongs to one more class. -/
theorem Nested.beginOrder (h : s.Nested stack) (hcls : s.values.isClass cls = true)
    (hnew : s.memo.find? (.order cls) = none) : (s.beginOrder cls).Nested (cls :: stack) := by
  have hne : ∀ c ∈ stack, c ≠ cls := by
    rintro c hc rfl
    obtain ⟨sofar, hfound⟩ := Memo.isRunning_iff.mp (h.running c hc)
    cases hnew.symm.trans hfound
  refine ⟨nodup_cons.mpr ⟨fun hmem => hne cls hmem rfl, h.nodup⟩,
    forall_mem_cons.mpr ⟨?_, fun c hc => ?_⟩, forall_mem_cons.mpr ⟨hcls, h.isClass⟩⟩
  · exact Memo.isRunning_iff.mpr ⟨_, s.find?_beginOrder_self cls⟩
  · rw [Memo.isRunning_congr (find?_beginOrder_of_ne (by simpa using hne c hc))]
    exact h.running c hc

/-- Classes under way are distinct values, so there are not more of them. -/
theorem Nested.length_le (h : s.Nested stack) : stack.length ≤ s.values.size := by
  rw [← length_range (n := s.values.size)]
  refine (h.nodup.subperm fun c hc => ?_).length_le
  obtain ⟨value, hget⟩ := Values.exists_get?_of_isClass (h.isClass c hc)
  exact mem_range.mpr (Arena.lt_size_of_get? hget)

end Session

namespace Infer

variable {s t : Session} {cls : ValueId} {stack : List ValueId} {room : Nat} {e : Failure}

/-- The bases of some class cannot be found in a session that has all that the given one has. What
is left of the room is as much as the orders that are being collected there leave of it. -/
def BasesFail (s : Session) (room : Nat) : Prop :=
  ∃ (c : ValueId) (depth : Nat) (u v : Session) (stack : List ValueId), s.Keeps u ∧ u.Nested stack ∧
    room ≤ depth + stack.length ∧ ask (.bases c) (engine depth) u = (.error .nestedTooDeeply, v)

theorem BasesFail.of_keeps (h : BasesFail t room) (hkeeps : s.Keeps t) : BasesFail s room := by
  obtain ⟨c, depth, u, v, stack, hu, hrest⟩ := h
  exact ⟨c, depth, u, v, stack, hkeeps.trans hu, hrest⟩

theorem failsDeep_bases (depth : Nat) : FailsDeep (ask (.bases cls)) (engine depth) := by
  intro s e t hrun
  cases depth with
  | zero => cases hrun; rfl
  | succ depth => exact Session.eq_nestedTooDeeply_of_answer hrun

/-- Orders are collected unless bases cannot be found. -/
theorem basesFail_of_order (depth : Nat) (h : s.Nested stack)
    (hrun : order cls (engine depth) s = (.error e, t)) :
    e = .nestedTooDeeply ∧ BasesFail s (depth + stack.length) := by
  by_cases hcls : s.values.isClass cls = true
  case neg =>
    have hget : (get : Infer Session) (engine depth) s = (.ok s, s) := rfl
    rw [order, bind_of_ok hget, if_neg hcls] at hrun
    cases hrun
  rw [order_of_isClass hcls] at hrun
  induction depth generalizing s cls stack e t with
  | zero =>
    cases hrun
    exact ⟨rfl, cls, 0, s, s, stack, ⟨.refl _, .refl _⟩, h, Nat.le_refl _, rfl⟩
  | succ depth ih =>
    obtain ⟨rfl, hnew, v, hfollow⟩ :=
      (answer_order_ending cls (engine depth) s).failure (congrArg Prod.fst hrun)
    have hbegun := h.beginOrder hcls hnew
    have hkeeps := s.keeps_beginOrder hnew
    refine ⟨rfl,
      ((meets_followBases (steady_engine depth) ?_ ?_).failure _ (congrArg Prod.fst hfollow))⟩
    · intro e v hbases
      obtain rfl := failsDeep_bases depth _ _ _ hbases
      exact ⟨_, depth, _, v, cls :: stack, hkeeps, hbegun, by rw [length_cons]; omega, hbases⟩
    · intro base u e v hu hbase horder
      rw [order_of_isClass hbase.isClass_base] at horder
      have hfails := (ih (hbegun.evolves hu) horder hbase.isClass_base).2
      rw [length_cons, Nat.add_comm stack.length, ← Nat.add_assoc] at hfails
      exact hfails.of_keeps (hkeeps.trans hu.keeps)

theorem start_order (h : s.values.isClass cls = true) :
    (order cls).start s = answer (.order cls) (engine (engineDepth - 1)) s := order_of_isClass h

/-- An order that is not being collected is recorded when it is answered. -/
theorem find?_of_order (hidle : s.memo.isRunning (.order cls) = false)
    (hcls : s.values.isClass cls = true) {list : List ValueId}
    (hrun : (order cls).start s = (.ok list, t)) :
    t.memo.find? (.order cls) = some (.done list) := by
  rw [start_order hcls] at hrun
  have hending := answer_order_ending cls (engine (engineDepth - 1)) s
  rcases Session.recorded_of_ending (hrun ▸ hending) with ⟨sofar, hfound, -⟩ | hdone
  · cases hidle.symm.trans (Memo.isRunning_iff.mpr ⟨_, hfound⟩)
  · exact hdone

end Infer

/-- No query spoils an order that is recorded or under way. -/
theorem Session.Reached.ordered {s : Session} (h : s.Reached) : s.Ordered := by
  obtain ⟨files, settings, traced, hlater⟩ := h
  refine hlater.evolves.ordered fun c entry hentry => ?_
  cases Memo.find?_empty.symm.trans hentry

/-- A class that names itself as its base. -/
def Source.selfSample : Source := ⟨"class X(X):\n x = 1\n", []⟩

end NameInference

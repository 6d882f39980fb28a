import Mathlib.Logic.Relation
import NameInference.Proofs.Inference.AppendNew
import NameInference.Proofs.Memo.Entries
import NameInference.Proofs.Value.Interning

/-!
# Recorded bases and orders

What a session has recorded about the bases of classes makes a relation between classes. It may have
cycles, and it grows while more bases are found. Every order of a class that the session has,
whether it still grows or not, begins with the class, has no class twice, and holds only classes
that can be reached over recorded bases.
-/

namespace NameInference

namespace Values

variable {values later : Values} {cls : ValueId}

theorem exists_get?_of_isClass (h : values.isClass cls = true) :
    ∃ value, values.get? cls = some value := by
  cases hget : values.get? cls with
  | none => simp [isClass, test, hget] at h
  | some value => exact ⟨value, rfl⟩

theorem isClass_of_keeps (h : values.isClass cls = true) (hkeeps : values.Keeps later) :
    later.isClass cls = true := by
  obtain ⟨value, hget⟩ := exists_get?_of_isClass h
  simpa [isClass, test, hget, hkeeps.items _ _ hget] using h

theorem plainClass_of_keeps (h : values.isClass cls = true) (hkeeps : values.Keeps later) :
    later.plainClass cls = values.plainClass cls := by
  obtain ⟨value, hget⟩ := exists_get?_of_isClass h
  rw [plainClass, plainClass, hget, hkeeps.items _ _ hget]

/-- Only classes have a plain class behind them. -/
theorem isClass_of_class? (h : (values.class? (values.plainClass cls)).isSome = true) :
    values.isClass cls = true := by
  unfold plainClass at h
  split at h
  · next hget => simp [isClass, test, hget, Value.isClass]
  · unfold class? at h
    split at h
    · next hget => simp [isClass, test, hget, Value.isClass]
    · cases h

end Values

namespace Session

variable {s t : Session} {cls base member : ValueId} {list : List ValueId}

/-- One class is recorded among the bases of the other. A generic class has the bases of the class
it gives parameters to. -/
structure HasBase (s : Session) (cls base : ValueId) : Prop where
  isClass : s.values.isClass cls = true
  isClass_base : s.values.isClass base = true
  recorded : ∃ sets, s.memo.find? (.bases (s.values.plainClass cls)) = some (.done sets) ∧
    ∃ set ∈ sets, base ∈ set.ids

/-- One class can be reached from the other over recorded bases. -/
abbrev Reaches (s : Session) : ValueId → ValueId → Prop := Relation.ReflTransGen s.HasBase

/-- The list begins with the class, has no class twice and only classes that can be reached. -/
structure IsOrder (s : Session) (cls : ValueId) (list : List ValueId) : Prop where
  head?_eq : list.head? = some cls
  nodup : list.Nodup
  reaches : ∀ c ∈ list, s.Reaches cls c

/-- Every order is one, also while it grows. -/
def Ordered (s : Session) : Prop :=
  ∀ cls entry, s.memo.find? (.order cls) = some entry →
    ∃ list, (entry = .done list ∨ entry = .running (some list)) ∧ s.IsOrder cls list

/-- Answers and values stay as they are. -/
structure Keeps (s t : Session) : Prop where
  memo : s.memo.Keeps t.memo
  values : s.values.Keeps t.values

theorem Keeps.trans {u : Session} (h : s.Keeps t) (h' : t.Keeps u) : s.Keeps u :=
  ⟨h.memo.trans h'.memo, h.values.trans h'.values⟩

theorem keeps_grow (s : Session) (q : Question) (f : Answer q → Answer q) :
    s.Keeps (memoSlot.update (·.grow q f) s) :=
  ⟨Memo.keeps_grow, .refl _⟩

theorem HasBase.keeps (h : s.HasBase cls base) (hkeeps : s.Keeps t) : t.HasBase cls base := by
  obtain ⟨sets, hdone, hbase⟩ := h.recorded
  refine ⟨Values.isClass_of_keeps h.isClass hkeeps.values,
    Values.isClass_of_keeps h.isClass_base hkeeps.values, sets, ?_, hbase⟩
  rw [Values.plainClass_of_keeps h.isClass hkeeps.values]
  exact hkeeps.memo _ _ hdone

theorem Reaches.keeps (h : s.Reaches cls base) (hkeeps : s.Keeps t) : t.Reaches cls base :=
  Relation.ReflTransGen.mono (fun _ _ h => h.keeps hkeeps) _ _ h

theorem IsOrder.keeps (h : s.IsOrder cls list) (hkeeps : s.Keeps t) : t.IsOrder cls list :=
  ⟨h.head?_eq, h.nodup, fun c hc => Reaches.keeps (h.reaches c hc) hkeeps⟩

/-- Orders stay in order if each of them stays as it is or is one. -/
theorem Ordered.keeps (h : s.Ordered) (hkeeps : s.Keeps t)
    (horders : ∀ c entry, t.memo.find? (.order c) = some entry →
      s.memo.find? (.order c) = some entry ∨
      ∃ list, (entry = .done list ∨ entry = .running (some list)) ∧ t.IsOrder c list) :
    t.Ordered := by
  intro c entry hentry
  rcases horders c entry hentry with hold | hnew
  · obtain ⟨list, hlist, horder⟩ := h c entry hold
    exact ⟨list, hlist, horder.keeps hkeeps⟩
  · exact hnew

theorem Ordered.of_memo_eq (h : s.Ordered) (hmemo : t.memo = s.memo)
    (hvalues : s.values.Keeps t.values) : t.Ordered :=
  h.keeps ⟨hmemo ▸ .refl _, hvalues⟩ fun _ _ hentry => .inl (hmemo ▸ hentry)

theorem isOrder_self (s : Session) (cls : ValueId) : s.IsOrder cls [cls] :=
  ⟨rfl, List.nodup_singleton cls, by simpa using Relation.ReflTransGen.refl⟩

theorem IsOrder.appendNew (h : s.IsOrder cls list) (hmember : s.Reaches cls member) :
    s.IsOrder cls (Infer.appendNew list member) where
  head?_eq := Infer.head?_appendNew h.head?_eq member
  nodup := Infer.nodup_appendNew h.nodup member
  reaches c hc := by
    rcases Infer.mem_appendNew.mp hc with hc | rfl
    · exact h.reaches c hc
    · exact hmember

end Session

end NameInference

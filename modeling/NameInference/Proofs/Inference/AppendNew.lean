import Mathlib.Data.List.Dedup
import Mathlib.Data.List.Induction
import NameInference.Inference.Classes

/-!
# Appending what is new

Lists of classes and of modules grow by what is not in them yet. Such a list keeps its first member
and has none twice: it holds the first occurrences of all that was ever appended.
-/

namespace NameInference.Infer

open List

variable {c x : ValueId} {list more : List ValueId}

theorem mem_appendNew : c ∈ appendNew list x ↔ c ∈ list ∨ c = x := by
  unfold appendNew
  split
  · next hx =>
    refine ⟨Or.inl, ?_⟩
    rintro (hc | rfl)
    · exact hc
    · simpa using hx
  · simp

theorem nodup_appendNew (h : list.Nodup) (x : ValueId) : (appendNew list x).Nodup := by
  unfold appendNew
  split
  · exact h
  · next hx =>
    rw [← concat_eq_append]
    exact h.concat (by simpa using hx)

theorem head?_appendNew (h : list.head? = some c) (x : ValueId) :
    (appendNew list x).head? = some c := by
  unfold appendNew
  split
  · exact h
  · rw [head?_append, h]
    rfl

theorem mem_foldl_appendNew : c ∈ more.foldl appendNew list ↔ c ∈ list ∨ c ∈ more := by
  induction more generalizing list with
  | nil => simp
  | cons x more ih => rw [foldl_cons, ih, mem_appendNew, mem_cons, or_assoc]

theorem nodup_foldl_appendNew (h : list.Nodup) : (more.foldl appendNew list).Nodup :=
  List.foldlRecOn more appendNew h fun _ h x _ => nodup_appendNew h x

/-- Appending what is new keeps first occurrences. -/
theorem eraseDups_concat (list : List ValueId) (c : ValueId) :
    (list ++ [c]).eraseDups = appendNew list.eraseDups c := by
  rw [eraseDups_append, appendNew]
  by_cases hc : c ∈ list
  · simp [List.removeAll, hc]
  · simp [List.removeAll, hc, eraseDups_cons]

theorem foldl_appendNew_eraseDups (list more : List ValueId) :
    more.foldl appendNew list.eraseDups = (list ++ more).eraseDups := by
  induction more generalizing list with
  | nil => rw [foldl_nil, append_nil]
  | cons c more ih => rw [foldl_cons, ← eraseDups_concat, ih, append_assoc, singleton_append]

/-- What occurs again within the appended list makes no difference. -/
theorem eraseDups_append_eraseDups (list more : List ValueId) :
    (list ++ more.eraseDups).eraseDups = (list ++ more).eraseDups := by
  induction more using List.reverseRecOn with
  | nil => rfl
  | append_singleton more c ih =>
    rw [eraseDups_concat, ← append_assoc, eraseDups_concat, ← ih, appendNew]
    split
    · next hc =>
      have hmem : c ∈ more := by simpa using hc
      rw [appendNew, if_pos (by simp [hmem])]
    · rw [← append_assoc, eraseDups_concat]

end NameInference.Infer

import Mathlib.Data.List.Basic
import Mathlib.Data.List.Induction
import NameInference.Value.Basic

/-!
# Interning is canonical

An arena is consistent if its index finds exactly the items it holds. Interning keeps an arena
consistent and every item where it is, so a handle stands for one key and a key for one handle. The
first item with a new key gets the number of keys before it. Nothing of this depends on what keys
hash to: the hashes only decide which items a key is compared with.
-/

namespace NameInference.Arena

open List

variable {α κ : Type} [BEq κ] [Hashable κ] {key : α → κ} {arena later : Arena α κ} {a : α}
  {handle : Nat}

/-- The index finds an item under its key, and nothing else. -/
def Consistent (key : α → κ) (arena : Arena α κ) : Prop :=
  ∀ (k : κ) (handle : Nat), arena.find? key k = some handle ↔ (arena.get? handle).map key = some k

/-- Every item keeps its handle, and every key leads to the handle it led to. -/
structure Keeps (key : α → κ) (arena later : Arena α κ) : Prop where
  items : ∀ handle a, arena.get? handle = some a → later.get? handle = some a
  found : ∀ (k : κ) (handle : Nat), arena.find? key k = some handle →
    later.find? key k = some handle

theorem Keeps.refl (arena : Arena α κ) : arena.Keeps key arena := ⟨fun _ _ h => h, fun _ _ h => h⟩

theorem Keeps.trans {last : Arena α κ} (h : arena.Keeps key later) (h' : later.Keeps key last) :
    arena.Keeps key last :=
  ⟨fun handle a ha => h'.items handle a (h.items handle a ha),
    fun k handle hk => h'.found k handle (h.found k handle hk)⟩

theorem lt_size_of_get? (h : arena.get? handle = some a) : handle < arena.size := by
  obtain ⟨hlt, -⟩ := Array.getElem?_eq_some_iff.mp h
  exact hlt

theorem lt_size_of_ne_none (h : arena.get? handle ≠ none) : handle < arena.size := by
  obtain ⟨a, ha⟩ := Option.ne_none_iff_exists'.mp h
  exact lt_size_of_get? ha

theorem exists_get? (h : handle < arena.size) : ∃ a, arena.get? handle = some a :=
  ⟨arena.items[handle], Array.getElem?_eq_getElem h⟩

theorem Keeps.get?_eq (h : arena.Keeps key later) (hlt : handle < arena.size) :
    later.get? handle = arena.get? handle := by
  obtain ⟨a, ha⟩ := exists_get? hlt
  rw [ha, h.items handle a ha]

theorem Keeps.size_le (h : arena.Keeps key later) : arena.size ≤ later.size := by
  by_contra hlt
  obtain ⟨a, ha⟩ := exists_get? (Nat.lt_of_not_le hlt)
  exact absurd (lt_size_of_get? (h.items _ a ha)) (Nat.lt_irrefl _)

theorem find?_empty (key : α → κ) (k : κ) : ({} : Arena α κ).find? key k = none := by
  simp [find?, bucket]

theorem consistent_empty : Consistent key ({} : Arena α κ) := by
  intro k handle
  simp [find?_empty, get?]

theorem intern_of_known (h : arena.find? key (key a) = some handle) :
    arena.intern key a = (handle, arena) := by
  rw [intern, h]

theorem intern_of_new (h : arena.find? key (key a) = none) :
    arena.intern key a = (arena.size, arena.push key a) := by
  rw [intern, h]

theorem get?_push (key : α → κ) (arena : Arena α κ) (a : α) (handle : Nat) :
    (arena.push key a).get? handle = if handle = arena.size then some a else arena.get? handle :=
  Array.getElem?_push

theorem get?_size (arena : Arena α κ) : arena.get? arena.size = none :=
  Array.getElem?_eq_none (Nat.le_refl _)

theorem bucket_push (key : α → κ) (arena : Arena α κ) (a : α) (hash' : UInt64) :
    (arena.push key a).bucket hash' =
      if hash (key a) = hash' then arena.bucket hash' ++ [arena.size] else arena.bucket hash' := by
  simp only [bucket, push, Std.HashMap.getD_insert, beq_iff_eq]
  split
  · next heq => rw [heq]
  · rfl

/-- An arena holds nothing new but the item. -/
theorem get?_of_intern {b : α} (h : (arena.intern key a).2.get? handle = some b) :
    arena.get? handle = some b ∨ b = a := by
  cases hnew : arena.find? key (key a) with
  | some known =>
    rw [intern_of_known hnew] at h
    exact .inl h
  | none =>
    rw [intern_of_new hnew, get?_push] at h
    split at h
    · exact .inr (Option.some.inj h).symm
    · exact .inl h

variable [LawfulBEq κ]

/-- A new item is found by its own key and hides no other one, also if other keys have the hash of
its key. -/
theorem find?_push (h : arena.find? key (key a) = none) (k : κ) :
    (arena.push key a).find? key k = if key a == k then some arena.size else arena.find? key k := by
  rw [find?, bucket_push]
  by_cases hk : key a = k
  · subst hk
    rw [if_pos rfl, if_pos (beq_self_eq_true _), find?_append]
    cases hfound : (arena.bucket (hash (key a))).find? fun handle =>
        ((arena.push key a).get? handle).any (key · == key a) with
    | none => simp [get?_push]
    | some handle =>
      -- The handle is that of the new item, because no other item has its key.
      have hkey := find?_some hfound
      rw [get?_push] at hkey
      split at hkey
      · next hsize => rw [hsize]; rfl
      · exact absurd hkey (find?_eq_none.mp h _ (mem_of_find?_eq_some hfound))
  · have hsame : (fun handle => ((arena.push key a).get? handle).any (key · == k)) =
        fun handle => (arena.get? handle).any (key · == k) := by
      funext handle
      rw [get?_push]
      split
      · next hsize => simp [hsize, get?_size, hk]
      · rfl
    have hother : ¬(key a == k) = true := fun heq => hk (eq_of_beq heq)
    rw [hsame, if_neg hother, find?]
    split
    · rw [find?_append]
      simp [get?_size]
    · rfl

/-- The index finds what has just been interned. -/
theorem find?_intern (key : α → κ) (arena : Arena α κ) (a : α) :
    (arena.intern key a).2.find? key (key a) = some (arena.intern key a).1 := by
  cases h : arena.find? key (key a) with
  | some handle => rw [intern_of_known h, h]
  | none => rw [intern_of_new h, find?_push h, if_pos (beq_self_eq_true _)]

theorem keeps_intern (key : α → κ) (arena : Arena α κ) (a : α) :
    arena.Keeps key (arena.intern key a).2 := by
  cases h : arena.find? key (key a) with
  | some handle =>
    rw [intern_of_known h]
    exact .refl arena
  | none =>
    rw [intern_of_new h]
    refine ⟨fun handle b hb => ?_, fun k handle hk => ?_⟩
    · rw [get?_push, if_neg (Nat.ne_of_lt (lt_size_of_get? hb)), hb]
    · rw [find?_push h, if_neg, hk]
      intro heq
      rw [eq_of_beq heq, hk] at h
      cases h

theorem Consistent.intern (h : arena.Consistent key) (a : α) :
    (arena.intern key a).2.Consistent key := by
  cases hnew : arena.find? key (key a) with
  | some handle => rwa [intern_of_known hnew]
  | none =>
    rw [intern_of_new hnew]
    intro k handle
    rw [find?_push hnew, get?_push]
    by_cases hhandle : handle = arena.size
    · -- No item has this handle yet, so the index leads to it from the new key alone.
      have hnone : arena.find? key k ≠ some handle := by
        rw [Ne, h k handle, hhandle, get?_size]
        simp
      by_cases hk : key a = k <;> simp [hhandle, hk] at hnone ⊢
      exact hnone
    · by_cases hk : key a = k
      · have hnone := h k handle
        rw [← hk, hnew] at hnone
        simpa [hhandle, hk, Ne.symm hhandle] using hnone
      · simpa [hhandle, hk] using h k handle

/-- An item is found again with its own key. -/
theorem Consistent.get?_intern (h : arena.Consistent key) (a : α) :
    ((arena.intern key a).2.get? (arena.intern key a).1).map key = some (key a) :=
  (h.intern a _ _).mp (find?_intern key arena a)

/-- Items with different keys have different handles. -/
theorem Consistent.intern_ne (h : arena.Consistent key) {b : α} (hne : key a ≠ key b) :
    ((arena.intern key a).2.intern key b).1 ≠ (arena.intern key a).1 := by
  intro hsame
  obtain ⟨found, hfound, hkey⟩ := Option.map_eq_some_iff.mp (h.get?_intern a)
  have hkept := (keeps_intern key (arena.intern key a).2 b).items _ _ hfound
  have hother := (h.intern a).get?_intern b
  rw [hsame, hkept, Option.map_some, Option.some_inj] at hother
  exact hne (hkey.symm.trans hother)

/-- Interned again, an item gets the handle it has and adds nothing. -/
theorem Keeps.intern_again (h : (arena.intern key a).2.Keeps key later) :
    later.intern key a = ((arena.intern key a).1, later) :=
  intern_of_known (h.found _ _ (find?_intern key arena a))

/-- The handles of some items that are interned one after the other. -/
def internAll (key : α → κ) (arena : Arena α κ) (items : List α) : List Nat × Arena α κ :=
  items.foldl (fun (handles, arena) a =>
    (handles ++ [(arena.intern key a).1], (arena.intern key a).2)) ([], arena)

/-- What an arena gives for some items, and what it holds then, if it was empty before. Handles are
numbers in the order of first occurrence; two items have the same one exactly if they have the same
key; and a handle gives back the first item with the key that it was given for. -/
structure Canonical (key : α → κ) (items : List α) (handles : List Nat) (arena : Arena α κ) :
    Prop where
  handles_eq : handles = items.map fun a => (items.map key).eraseDups.idxOf (key a)
  size_eq : arena.size = (items.map key).eraseDups.length
  same_iff : ∀ a m b n, (a, m) ∈ items.zip handles → (b, n) ∈ items.zip handles →
    (m = n ↔ key a = key b)
  get?_eq : ∀ a m, (a, m) ∈ items.zip handles →
    arena.get? m = items.find? (fun b => key b == key a) ∧ (arena.get? m).map key = some (key a)

/-- The arena holds the first item of each key, in the order of their occurrence. -/
structure Holds (key : α → κ) (items : List α) (arena : Arena α κ) : Prop where
  consistent : arena.Consistent key
  keys_eq : arena.items.toList.map key = (items.map key).eraseDups
  first : ∀ handle a, arena.get? handle = some a → items.find? (fun b => key b == key a) = some a

variable {items : List α} {k : κ}

omit [LawfulBEq κ] in
theorem holds_empty (key : α → κ) : Holds key [] {} where
  consistent := consistent_empty
  keys_eq := rfl
  first handle a h := by simp [get?] at h

namespace Holds

omit [LawfulBEq κ] in
theorem getElem?_keys (h : Holds key items arena) (handle : Nat) :
    (items.map key).eraseDups[handle]? = (arena.get? handle).map key := by
  rw [← h.keys_eq, getElem?_map, Array.getElem?_toList]
  rfl

/-- A handle is the number of its key. -/
theorem idxOf_eq (h : Holds key items arena) (hget : (arena.get? handle).map key = some k) :
    (items.map key).eraseDups.idxOf k = handle := by
  have hmem : k ∈ (items.map key).eraseDups := mem_of_getElem? ((h.getElem?_keys handle).trans hget)
  have hat := h.getElem?_keys ((items.map key).eraseDups.idxOf k)
  rw [getElem?_eq_getElem (idxOf_lt_length_of_mem hmem), getElem_idxOf] at hat
  have hindex := (h.consistent _ _).mpr hat.symm
  rw [(h.consistent k handle).mpr hget] at hindex
  exact (Option.some.inj hindex).symm

/-- The keys of the items, and only these, are known. -/
theorem mem_iff (h : Holds key items arena) :
    k ∈ items.map key ↔ ∃ handle, arena.find? key k = some handle := by
  rw [← mem_eraseDups, mem_iff_getElem?]
  constructor
  · rintro ⟨handle, hk⟩
    exact ⟨handle, (h.consistent k handle).mpr ((h.getElem?_keys handle).symm.trans hk)⟩
  · rintro ⟨handle, hk⟩
    exact ⟨handle, (h.getElem?_keys handle).trans ((h.consistent k handle).mp hk)⟩

theorem intern_of_mem (h : Holds key items arena) (hmem : key a ∈ items.map key) :
    Holds key (items ++ [a]) (arena.intern key a).2 := by
  obtain ⟨handle, hknown⟩ := h.mem_iff.mp hmem
  rw [intern_of_known hknown]
  refine ⟨h.consistent, ?_, fun handle b hb => ?_⟩
  · rw [h.keys_eq, map_append, eraseDups_append]
    simp [List.removeAll, hmem]
  · rw [find?_append, h.first handle b hb, Option.some_or]

theorem intern_of_not_mem (h : Holds key items arena) (hmem : key a ∉ items.map key) :
    Holds key (items ++ [a]) (arena.intern key a).2 := by
  have hnew : arena.find? key (key a) = none :=
    Option.eq_none_iff_forall_ne_some.mpr fun handle hknown => hmem (h.mem_iff.mpr ⟨handle, hknown⟩)
  refine ⟨h.consistent.intern a, ?_, fun handle b hb => ?_⟩
  · rw [intern_of_new hnew, push, Array.toList_push, map_append, h.keys_eq, map_append,
      eraseDups_append]
    simp [List.removeAll, hmem, eraseDups_cons]
  · rw [intern_of_new hnew, get?_push] at hb
    rw [find?_append]
    split at hb
    · obtain rfl := Option.some.inj hb
      have hnone : items.find? (fun b => key b == key a) = none := by
        simpa using hmem
      simp [hnone]
    · rw [h.first handle b hb, Option.some_or]

/-- One more item: its key is known and nothing changes, or it is new and goes to the end. -/
theorem intern (h : Holds key items arena) (a : α) :
    Holds key (items ++ [a]) (arena.intern key a).2 := by
  by_cases hmem : key a ∈ items.map key
  · exact h.intern_of_mem hmem
  · exact h.intern_of_not_mem hmem

end Holds

omit [LawfulBEq κ] in
theorem internAll_concat (key : α → κ) (arena : Arena α κ) (items : List α) (a : α) :
    arena.internAll key (items ++ [a]) =
      ((arena.internAll key items).1 ++ [((arena.internAll key items).2.intern key a).1],
        ((arena.internAll key items).2.intern key a).2) := by
  rw [internAll, foldl_append]
  rfl

omit [LawfulBEq κ] in
theorem internAll_cons (key : α → κ) (arena : Arena α κ) (a : α) (items : List α) :
    arena.internAll key (a :: items) =
      ((arena.intern key a).1 :: ((arena.intern key a).2.internAll key items).1,
        ((arena.intern key a).2.internAll key items).2) := by
  induction items using List.reverseRecOn with
  | nil => rfl
  | append_singleton items b ih =>
    rw [← cons_append, internAll_concat, ih, internAll_concat]
    rfl

theorem keeps_internAll (key : α → κ) (arena : Arena α κ) (items more : List α) :
    (arena.internAll key items).2.Keeps key (arena.internAll key (items ++ more)).2 := by
  induction more using List.reverseRecOn with
  | nil =>
    rw [append_nil]
    exact .refl _
  | append_singleton more a ih =>
    rw [← append_assoc, internAll_concat]
    exact ih.trans (keeps_intern key _ a)

theorem holds_internAll (key : α → κ) (items : List α) :
    Holds key items (({} : Arena α κ).internAll key items).2 := by
  induction items using List.reverseRecOn with
  | nil => exact holds_empty key
  | append_singleton items a ih =>
    rw [internAll_concat]
    exact ih.intern a

/-- Items with different keys are kept in their order. -/
theorem get?_internAll (h : (items.map key).Nodup) (handle : Nat) :
    (({} : Arena α κ).internAll key items).2.get? handle = items[handle]? := by
  suffices hitems : (({} : Arena α κ).internAll key items).2.items.toList = items by
    rw [get?, ← Array.getElem?_toList, hitems]
  induction items using List.reverseRecOn with
  | nil => rfl
  | append_singleton items a ih =>
    rw [map_append, nodup_append] at h
    obtain ⟨hbefore, -, hdisjoint⟩ := h
    have hfresh : key a ∉ items.map key := fun hmem => hdisjoint _ hmem _ (by simp) rfl
    have hnew : (({} : Arena α κ).internAll key items).2.find? key (key a) = none :=
      Option.eq_none_iff_forall_ne_some.mpr fun handle hknown =>
        hfresh ((holds_internAll key items).mem_iff.mpr ⟨handle, hknown⟩)
    rw [internAll_concat, intern_of_new hnew, push, Array.toList_push, ih hbefore]

/-- Handles are the numbers of the keys in the order of first occurrence. -/
theorem handles_internAll (key : α → κ) (items : List α) :
    (({} : Arena α κ).internAll key items).1 = items.map fun a =>
      (items.map key).eraseDups.idxOf (key a) := by
  induction items using List.reverseRecOn with
  | nil => rfl
  | append_singleton items a ih =>
    have hholds := holds_internAll key items
    rw [internAll_concat, ih, map_append]
    refine congrArg₂ (· ++ ·) ?_ ?_
    · -- The numbers of the keys before stay as they are.
      refine map_congr_left fun b hb => ?_
      rw [map_append, eraseDups_append, idxOf_append_of_mem]
      exact mem_eraseDups.mpr (mem_map_of_mem hb)
    · rw [map_singleton, (hholds.intern a).idxOf_eq (hholds.consistent.get?_intern a)]

/-- Interning into an empty arena is canonical. -/
theorem canonical_internAll (key : α → κ) (items : List α) :
    Canonical key items (({} : Arena α κ).internAll key items).1
      (({} : Arena α κ).internAll key items).2 := by
  have hholds := holds_internAll key items
  rw [handles_internAll]
  refine ⟨rfl, ?_, ?_, ?_⟩
  · rw [← hholds.keys_eq, length_map, Array.length_toList, size]
  · intro a m b n ha hb
    rw [← map_prod_left_eq_zip] at ha hb
    obtain ⟨_, hmem, ⟨⟩⟩ := mem_map.mp ha
    obtain ⟨_, -, ⟨⟩⟩ := mem_map.mp hb
    exact idxOf_inj (mem_eraseDups.mpr (mem_map_of_mem hmem))
  · intro a m ha
    rw [← map_prod_left_eq_zip] at ha
    obtain ⟨_, hmem, ⟨⟩⟩ := mem_map.mp ha
    obtain ⟨handle, hknown⟩ := hholds.mem_iff.mp (mem_map_of_mem hmem)
    have hget := (hholds.consistent _ handle).mp hknown
    rw [hholds.idxOf_eq hget]
    obtain ⟨b, hb, hkey⟩ := Option.map_eq_some_iff.mp hget
    exact ⟨by rw [hb, ← hholds.first handle b hb, hkey], hget⟩

end NameInference.Arena

namespace NameInference

/-- A value is found under its key, and nothing else. -/
abbrev Values.Consistent (values : Values) : Prop := Arena.Consistent (·.map Place.key) values

/-- Every value keeps its handle. -/
abbrev Values.Keeps (values later : Values) : Prop := Arena.Keeps (·.map Place.key) values later

/-- Every argument list keeps its handle. -/
abbrev ArgumentLists.Keeps (lists later : ArgumentLists) : Prop :=
  Arena.Keeps (·.map Place.key) lists later

/-- The handles of values that are interned one after the other, and the arena behind them. -/
def Values.ofList (values : List (Value Place)) : List ValueId × Values :=
  ({} : Values).internAll (·.map Place.key) values

/-- The list of an unknown caller. -/
def ArgumentList.unknownCaller : ArgumentList Place := { isAnonymous := true }

/-- The handles of argument lists that are interned one after the other, and the arena behind them.
-/
def ArgumentLists.ofList (lists : List (ArgumentList Place)) : List ArgumentsId × ArgumentLists :=
  ArgumentLists.initial.internAll (·.map Place.key) lists

theorem ArgumentLists.intern_unknownCaller :
    ({} : ArgumentLists).intern (·.map Place.key) .unknownCaller = (0, ArgumentLists.initial) := by
  refine Prod.ext ?_ rfl
  rw [Arena.intern_of_new (Arena.find?_empty _ _)]
  rfl

/-- Interning is canonical. Two values get the same handle exactly if they agree in every field,
with places told apart by their keys; so do argument lists, of which that of an unknown caller has
handle 0 from the start, as if it had been interned first. What has a handle keeps it, whatever is
interned later. -/
theorem Arena.ofList_canonical (values more : List (Value Place))
    (lists moreLists : List (ArgumentList Place)) :
    (Canonical (·.map Place.key) values (Values.ofList values).1 (Values.ofList values).2 ∧
      (Values.ofList values).2.Keeps (Values.ofList (values ++ more)).2) ∧
    (Canonical (·.map Place.key) (.unknownCaller :: lists) (0 :: (ArgumentLists.ofList lists).1)
        (ArgumentLists.ofList lists).2 ∧
      (ArgumentLists.ofList lists).2.Keeps (ArgumentLists.ofList (lists ++ moreLists)).2) := by
  refine ⟨⟨canonical_internAll _ values, keeps_internAll _ _ values more⟩, ?_,
    keeps_internAll _ _ lists moreLists⟩
  have hcanonical := canonical_internAll (·.map Place.key) (ArgumentList.unknownCaller :: lists)
  rwa [internAll_cons, ArgumentLists.intern_unknownCaller] at hcanonical

end NameInference

import Mathlib.Data.List.Sort
import NameInference.Proofs.Value.Members

/-!
# The algebra of value sets

However a value set is built, its list is strictly ascending: a new member goes where a search by
halves finds its place, two sets are merged from their first members on, and a list is sorted and
rid of what occurs twice. So a set is decided by its members, and the laws of union and intersection
hold as equalities of sets.
-/

namespace NameInference.ValueSet

open List ValueSet

/-- The sets that can be built, where a function may give any such set for every handle. -/
inductive Built : ValueSet → Prop
  | empty : Built ∅
  | single (id : ValueId) : Built (single id)
  | ofList (ids : List ValueId) : Built (ofList ids)
  | insert {s : ValueSet} (id : ValueId) : Built s → Built (s.insert id)
  | union {s t : ValueSet} : Built s → Built t → Built (s.union t)
  | inter {s t : ValueSet} : Built s → Built t → Built (s.inter t)
  | join {s t : ValueSet} : Built s → Built t → Built (s.join t)
  | ofSets {sets : List ValueSet} : (∀ s ∈ sets, Built s) → Built (ofSets sets)
  | filter {s : ValueSet} (keep : ValueId → Bool) : Built s → Built (s.filter keep)
  | bind {s : ValueSet} {f : ValueId → ValueSet} : Built s → (∀ id, Built (f id)) → Built (s.bind f)

variable {id x : ValueId} {s t u : ValueSet} {sets : List ValueSet} {ids ids' : List ValueId}

theorem lowerBound_le_length (id : ValueId) (ids : List ValueId) :
    lowerBound id ids ≤ ids.length := by
  fun_induction lowerBound id ids with
  | case1 => exact Nat.zero_le _
  | case2 ids middle right hdrop _ ih =>
    have hlength : ids.length - ids.length / 2 = right.length + 1 := by
      rw [← length_drop, hdrop, length_cons]
    omega
  | case3 ids _ _ _ _ ih => exact ih.trans (length_take_le' _ _)

/-- The search by halves parts an ascending list into what is below the handle and what is not. -/
theorem lowerBound_parts (id : ValueId) (h : ids.Pairwise (· < ·)) :
    (∀ x ∈ ids.take (lowerBound id ids), x < id) ∧ ∀ x ∈ ids.drop (lowerBound id ids), id ≤ x := by
  fun_induction lowerBound id ids with
  | case1 ids hdrop =>
    have hlength : ids.length - ids.length / 2 = 0 := by rw [← length_drop, hdrop, length_nil]
    have hnil : ids = [] := length_eq_zero_iff.mp (by omega)
    simp [hnil]
  | case2 ids middle right hdrop hlt ih =>
    have hids : ids = ids.take (ids.length / 2) ++ middle :: right := by
      rw [← hdrop, take_append_drop]
    have hlength : (ids.take (ids.length / 2)).length = ids.length / 2 := by
      rw [length_take]
      omega
    generalize ids.take (ids.length / 2) = left at hids hlength
    generalize ids.length / 2 = half at hlength
    subst hids hlength
    obtain ⟨-, hright, hleft⟩ := pairwise_append.mp h
    obtain ⟨hbelow, habove⟩ := ih (pairwise_cons.mp hright).2
    rw [Nat.add_assoc, Nat.add_comm 1, take_length_add_append, drop_length_add_append,
      take_succ_cons, drop_succ_cons]
    refine ⟨fun x hx => ?_, habove⟩
    rcases mem_append.mp hx with hx | hx
    · exact (hleft x hx middle (by simp)).trans hlt
    · rcases mem_cons.mp hx with rfl | hx
      · exact hlt
      · exact hbelow x hx
  | case3 ids middle right hdrop hle ih =>
    have hids : ids = ids.take (ids.length / 2) ++ middle :: right := by
      rw [← hdrop, take_append_drop]
    generalize ids.take (ids.length / 2) = left at hids ih ⊢
    subst hids
    obtain ⟨hleft, hright, -⟩ := pairwise_append.mp h
    obtain ⟨hbelow, habove⟩ := ih hleft
    have hbound := lowerBound_le_length id left
    rw [take_append_of_le_length hbound, drop_append_of_le_length hbound]
    refine ⟨hbelow, fun x hx => ?_⟩
    rcases mem_append.mp hx with hx | hx
    · exact habove x hx
    · have hmiddle : id ≤ middle := Nat.not_lt.mp hle
      rcases mem_cons.mp hx with rfl | hx
      · exact hmiddle
      · exact hmiddle.trans (Nat.le_of_lt ((pairwise_cons.mp hright).1 x hx))

/-- A member is found by the search. -/
theorem contains_iff (h : s.ids.Pairwise (· < ·)) : s.contains x = true ↔ x ∈ s.ids := by
  obtain ⟨hbelow, habove⟩ := lowerBound_parts x h
  have hmem : x ∈ s.ids ↔ x ∈ s.ids.drop (lowerBound x s.ids) := by
    conv_lhs => rw [← take_append_drop (lowerBound x s.ids) s.ids, mem_append]
    exact ⟨fun hx => hx.resolve_left fun hx => Nat.lt_irrefl x (hbelow x hx), .inr⟩
  have hsorted : (s.ids.drop (lowerBound x s.ids)).Pairwise (· < ·) := h.drop
  rw [contains, hmem]
  cases hdrop : s.ids.drop (lowerBound x s.ids) with
  | nil => simp
  | cons first rest =>
    rw [hdrop] at habove hsorted
    have hfirst : x ≤ first := habove first (by simp)
    simp only [head?_cons, Option.any_some, decide_eq_true_eq, mem_cons]
    constructor
    · exact fun hle => .inl (Nat.le_antisymm hfirst hle)
    · rintro (rfl | hx)
      · exact Nat.le_refl _
      · exact Nat.le_of_lt ((pairwise_cons.mp hsorted).1 x hx)

@[simp] theorem contains_single (id : ValueId) : (single id).contains id = true :=
  (contains_iff (pairwise_singleton _ id)).mpr (mem_singleton_self id)

theorem pairwise_insert (h : s.ids.Pairwise (· < ·)) (id : ValueId) :
    (s.insert id).ids.Pairwise (· < ·) := by
  obtain ⟨hbelow, habove⟩ := lowerBound_parts id h
  simp only [insert, splitAt_eq]
  split
  · exact h
  · next hhead =>
    have hlt : ∀ x ∈ s.ids.drop (lowerBound id s.ids), id < x := by
      have hsorted : (s.ids.drop (lowerBound id s.ids)).Pairwise (· < ·) := h.drop
      cases hdrop : s.ids.drop (lowerBound id s.ids) with
      | nil => simp
      | cons first rest =>
        rw [hdrop] at habove hsorted hhead
        have hfirst : id < first :=
          lt_of_le_of_ne (habove first (by simp)) fun heq => hhead (by simp [heq])
        exact forall_mem_cons.mpr
          ⟨hfirst, fun x hx => hfirst.trans ((pairwise_cons.mp hsorted).1 x hx)⟩
    refine pairwise_append.mpr ⟨h.take, h.drop.cons hlt, fun x hx y hy => ?_⟩
    rcases mem_cons.mp hy with rfl | hy
    · exact hbelow x hx
    · exact (hbelow x hx).trans (hlt y hy)

theorem pairwise_mergeEither (h : ids.Pairwise (· < ·)) (h' : ids'.Pairwise (· < ·)) :
    (mergeEither ids ids').Pairwise (· < ·) := by
  fun_induction mergeEither ids ids' with
  | case1 t => exact h'
  | case2 s => exact h
  | case3 a s b t hab ih =>
    obtain ⟨ha, hs⟩ := pairwise_cons.mp h
    obtain ⟨hb, -⟩ := pairwise_cons.mp h'
    refine (ih hs h').cons fun x hx => ?_
    rcases (mem_mergeEither _ _).mp hx with hx | hx
    · exact ha x hx
    · rcases mem_cons.mp hx with rfl | hx
      · exact hab
      · exact hab.trans (hb x hx)
  | case4 a s b t _ hba ih =>
    obtain ⟨ha, -⟩ := pairwise_cons.mp h
    obtain ⟨hb, ht⟩ := pairwise_cons.mp h'
    refine (ih h ht).cons fun x hx => ?_
    rcases (mem_mergeEither _ _).mp hx with hx | hx
    · rcases mem_cons.mp hx with rfl | hx
      · exact hba
      · exact hba.trans (ha x hx)
    · exact hb x hx
  | case5 a s b t hab hba ih =>
    obtain rfl : a = b := Nat.le_antisymm (Nat.not_lt.mp hba) (Nat.not_lt.mp hab)
    obtain ⟨ha, hs⟩ := pairwise_cons.mp h
    obtain ⟨hb, ht⟩ := pairwise_cons.mp h'
    refine (ih hs ht).cons fun x hx => ?_
    exact ((mem_mergeEither _ _).mp hx).elim (ha x) (hb x)

theorem pairwise_join (h : s.ids.Pairwise (· < ·)) (h' : t.ids.Pairwise (· < ·)) :
    (s.join t).ids.Pairwise (· < ·) := by
  rw [join_eq_union]
  exact pairwise_mergeEither h h'

theorem pairwise_ofSets (h : ∀ s ∈ sets, s.ids.Pairwise (· < ·)) :
    (ofSets sets).ids.Pairwise (· < ·) :=
  List.foldlRecOn (motive := fun s => s.ids.Pairwise (· < ·)) sets join .nil fun _ hs t ht =>
    pairwise_join hs (h t ht)

/-- What is in both lists is found by the merge, because the smaller of the first members is in
neither rest. -/
theorem mem_mergeBoth (h : ids.Pairwise (· < ·)) (h' : ids'.Pairwise (· < ·)) :
    x ∈ mergeBoth ids ids' ↔ x ∈ ids ∧ x ∈ ids' := by
  fun_induction mergeBoth ids ids' with
  | case1 => simp
  | case2 => simp
  | case3 a s b t hab ih =>
    obtain ⟨-, hs⟩ := pairwise_cons.mp h
    obtain ⟨hb, -⟩ := pairwise_cons.mp h'
    rw [ih hs h', mem_cons (b := a)]
    refine ⟨fun ⟨hx, hx'⟩ => ⟨.inr hx, hx'⟩, fun ⟨hx, hx'⟩ => ⟨hx.resolve_left ?_, hx'⟩⟩
    rintro rfl
    rcases mem_cons.mp hx' with rfl | hx'
    · exact Nat.lt_irrefl _ hab
    · exact Nat.lt_asymm hab (hb x hx')
  | case4 a s b t _ hba ih =>
    obtain ⟨ha, -⟩ := pairwise_cons.mp h
    obtain ⟨-, ht⟩ := pairwise_cons.mp h'
    rw [ih h ht, mem_cons (b := b)]
    refine ⟨fun ⟨hx, hx'⟩ => ⟨hx, .inr hx'⟩, fun ⟨hx, hx'⟩ => ⟨hx, hx'.resolve_left ?_⟩⟩
    rintro rfl
    rcases mem_cons.mp hx with rfl | hx
    · exact Nat.lt_irrefl _ hba
    · exact Nat.lt_asymm hba (ha x hx)
  | case5 a s b t hab hba ih =>
    obtain rfl : a = b := Nat.le_antisymm (Nat.not_lt.mp hba) (Nat.not_lt.mp hab)
    rw [mem_cons, ih (pairwise_cons.mp h).2 (pairwise_cons.mp h').2, mem_cons, mem_cons]
    tauto

theorem mergeBoth_sublist (ids ids' : List ValueId) : List.Sublist (mergeBoth ids ids') ids := by
  fun_induction mergeBoth ids ids' with
  | case1 => exact .slnil
  | case2 => exact nil_sublist _
  | case3 a s b t _ ih => exact ih.cons a
  | case4 a s b t _ _ ih => exact ih
  | case5 a s b t _ _ ih => exact ih.cons_cons a

theorem pairwise_unique (h : ids.Pairwise (· ≤ ·)) : (unique ids).Pairwise (· < ·) := by
  fun_induction unique ids with
  | case1 => exact .nil
  | case2 id => exact pairwise_singleton _ id
  | case3 id next rest _ ih => exact ih (pairwise_cons.mp h).2
  | case4 id next rest hne ih =>
    obtain ⟨hid, hrest⟩ := pairwise_cons.mp h
    have hnext : id < next := lt_of_le_of_ne (hid next (by simp)) fun heq => hne (beq_of_eq heq)
    refine (ih hrest).cons fun x hx => ?_
    rcases mem_cons.mp ((mem_unique _).mp hx) with rfl | hx
    · exact hnext
    · exact hnext.trans_le ((pairwise_cons.mp hrest).1 x hx)

theorem pairwise_ofList (ids : List ValueId) : (ofList ids).ids.Pairwise (· < ·) := by
  refine pairwise_unique ((pairwise_mergeSort ?_ ?_ ids).imp of_decide_eq_true)
  · intro a b c hab hbc
    exact decide_eq_true ((of_decide_eq_true hab).trans (of_decide_eq_true hbc))
  · intro a b
    simpa using Nat.le_total a b

/-- Every operation gives a strictly ascending list. -/
theorem Built.pairwise (h : Built s) : s.ids.Pairwise (· < ·) := by
  induction h with
  | empty => exact .nil
  | single id => exact pairwise_singleton _ id
  | ofList ids => exact pairwise_ofList ids
  | insert id _ ih => exact pairwise_insert ih id
  | union _ _ ih ih' => exact pairwise_mergeEither ih ih'
  | inter _ _ ih => exact ih.sublist (mergeBoth_sublist _ _)
  | join _ _ ih ih' => exact pairwise_join ih ih'
  | ofSets _ ih => exact pairwise_ofSets ih
  | filter _ _ ih => exact ih.filter _
  | bind _ _ _ ih =>
    rw [bind_eq_ofSets]
    exact pairwise_ofSets (forall_mem_map.mpr fun id _ => ih id)

/-- Built sets with the same members are equal. -/
theorem Built.ext (hs : Built s) (ht : Built t) (h : ∀ x, x ∈ s.ids ↔ x ∈ t.ids) : s = t := by
  obtain ⟨ids⟩ := s
  obtain ⟨ids'⟩ := t
  exact congrArg mk (hs.pairwise.eq_of_mem_iff ht.pairwise h)

theorem Built.mem_inter (hs : Built s) (ht : Built t) :
    x ∈ (s.inter t).ids ↔ x ∈ s.ids ∧ x ∈ t.ids :=
  mem_mergeBoth hs.pairwise ht.pairwise

/-- What holds for three sets: their lists are strictly ascending, every operation has the members
that it should have, the members decide a set, and union and intersection obey their laws. -/
structure Laws (s t u : ValueSet) : Prop where
  ascending : s.ids.Pairwise (· < ·)
  contains_iff : ∀ x, s.contains x = true ↔ x ∈ s.ids
  mem_ofList : ∀ x ids, x ∈ (ofList ids).ids ↔ x ∈ ids
  mem_insert : ∀ x id, x ∈ (s.insert id).ids ↔ x = id ∨ x ∈ s.ids
  mem_union : ∀ x, x ∈ (s.union t).ids ↔ x ∈ s.ids ∨ x ∈ t.ids
  mem_inter : ∀ x, x ∈ (s.inter t).ids ↔ x ∈ s.ids ∧ x ∈ t.ids
  join_eq : s.join t = s.union t
  mem_filter : ∀ x keep, x ∈ (s.filter keep).ids ↔ x ∈ s.ids ∧ keep x = true
  mem_bind : ∀ x f, x ∈ (s.bind f).ids ↔ ∃ id ∈ s.ids, x ∈ (f id).ids
  mem_ofSets : ∀ x sets, x ∈ (ofSets sets).ids ↔ ∃ s ∈ sets, x ∈ s.ids
  ext_iff : s = t ↔ ∀ x, x ∈ s.ids ↔ x ∈ t.ids
  hash_eq : (∀ x, x ∈ s.ids ↔ x ∈ t.ids) → hash s = hash t
  union_assoc : (s.union t).union u = s.union (t.union u)
  union_comm : s.union t = t.union s
  union_self : s.union s = s
  inter_assoc : (s.inter t).inter u = s.inter (t.inter u)
  inter_comm : s.inter t = t.inter s
  inter_self : s.inter s = s

/-- The laws hold for all sets that can be built. -/
theorem laws_of_built (hs : Built s) (ht : Built t) (hu : Built u) : Laws s t u where
  ascending := hs.pairwise
  contains_iff x := contains_iff hs.pairwise
  mem_ofList x ids := mem_ofList
  mem_insert x id := mem_insert
  mem_union x := mem_union
  mem_inter x := hs.mem_inter ht
  join_eq := join_eq_union s t
  mem_filter x keep := mem_filter
  mem_bind x f := by
    rw [bind_eq_ofSets, mem_ofSets]
    simp
  mem_ofSets x sets := mem_ofSets
  ext_iff := ⟨fun h x => h ▸ Iff.rfl, hs.ext ht⟩
  hash_eq h := congrArg hash (hs.ext ht h)
  union_assoc := ((hs.union ht).union hu).ext (hs.union (ht.union hu)) fun x => by simp [or_assoc]
  union_comm := (hs.union ht).ext (ht.union hs) fun x => by simp [or_comm]
  union_self := (hs.union hs).ext hs fun x => by simp
  inter_assoc := ((hs.inter ht).inter hu).ext (hs.inter (ht.inter hu)) fun x => by
    rw [(hs.inter ht).mem_inter hu, hs.mem_inter ht, hs.mem_inter (ht.inter hu), ht.mem_inter hu,
      and_assoc]
  inter_comm := (hs.inter ht).ext (ht.inter hs) fun x => by
    rw [hs.mem_inter ht, ht.mem_inter hs, and_comm]
  inter_self := (hs.inter hs).ext hs fun x => by rw [hs.mem_inter hs, and_self_iff]

theorem laws_of_built_sample : Built (ofList [2, 1, 2]) ∧ Built (single 3) ∧
    (ofList [2, 1, 2]).union (single 3) = (single 3).union (ofList [2, 1, 2]) :=
  have hs := Built.ofList [2, 1, 2]
  have ht := Built.single 3
  ⟨hs, ht, (laws_of_built hs ht .empty).union_comm⟩

end NameInference.ValueSet

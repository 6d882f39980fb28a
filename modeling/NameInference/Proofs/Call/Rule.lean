import NameInference.Call.Matching

/-!
# The rule for arguments

The rule of the language for a call, stated on the whole parameter list and the whole argument list
at once: a positional argument serves the parameter with its number, a keyword argument the
parameter with its name, the surplus goes to the collecting parameters, and what is left gets its
default.
-/

namespace NameInference

open List

variable {name : Text} {params : List ParamSpec}

namespace ParamKind

/-- Parameters that take one positional argument each. -/
def isPositional : ParamKind → Bool
  | positionalOnly | positionalOrKeyword => true
  | _ => false

/-- The place of a kind in a parameter list. -/
def rank : ParamKind → Nat
  | positionalOnly => 0
  | positionalOrKeyword => 1
  | varPositional => 2
  | keywordOnly => 3
  | varKeyword => 4

end ParamKind

/-- A list in ascending order begins with what is below a bound. -/
theorem exists_split_of_pairwise {α : Type} {rank : α → Nat} {l : List α}
    (h : l.Pairwise fun a b => rank a ≤ rank b) (bound : Nat) :
    ∃ front back, l = front ++ back ∧ (∀ a ∈ front, rank a < bound) ∧
      ∀ a ∈ back, bound ≤ rank a := by
  induction l with
  | nil => exact ⟨[], [], by simp⟩
  | cons a l ih =>
    obtain ⟨ha, h⟩ := pairwise_cons.mp h
    by_cases hlt : rank a < bound
    · obtain ⟨front, back, rfl, hfront, hback⟩ := ih h
      exact ⟨a :: front, back, rfl, forall_mem_cons.mpr ⟨hlt, hfront⟩, hback⟩
    · have hle : bound ≤ rank a := Nat.le_of_not_lt hlt
      exact ⟨[], a :: l, rfl, by simp,
        forall_mem_cons.mpr ⟨hle, fun b hb => Nat.le_trans hle (ha b hb)⟩⟩

namespace ParamSpec

/-- A parameter list in the order of the language: kinds ascend, each collecting kind stands once at
most, and every parameter has a name of its own. -/
structure Canonical (params : List ParamSpec) : Prop where
  ordered : params.Pairwise fun p q =>
    p.kind.rank ≤ q.kind.rank ∧ (p.kind = q.kind → p.kind.isVariadic = false)
  distinct : (params.map (·.name)).Nodup
  named : ∀ p ∈ params, p.name ≠ []

/-- Keywords can name two kinds of parameters. -/
def takesKeyword (p : ParamSpec) : Prop := p.kind = .positionalOrKeyword ∨ p.kind = .keywordOnly

instance : DecidablePred takesKeyword := fun _ => inferInstanceAs (Decidable (_ ∨ _))

theorem isVariadic_of_takesKeyword {p : ParamSpec} (h : takesKeyword p) :
    p.kind.isVariadic = false := by
  rcases h with h | h <;> rw [h] <;> rfl

end ParamSpec

namespace Argument

variable {α : Type}

/-- The arguments without a keyword. -/
def positional (items : List (Argument α)) : List (Argument α) := items.filter (·.keyword.isNone)

/-- The arguments with a keyword. -/
def named (items : List (Argument α)) : List (Argument α) := items.filter (·.keyword.isSome)

/-- The arguments whose keyword is the name of no parameter. -/
def extra (params : List ParamSpec) (items : List (Argument α)) : List (Argument α) :=
  (named items).filter fun a => params.all fun p => a.keyword != some p.name

section Append

variable {given keys : List (Argument α)}

theorem positional_append (hgiven : ∀ a ∈ given, a.keyword = none)
    (hkeys : ∀ a ∈ keys, a.keyword.isSome = true) :
    Argument.positional (given ++ keys) = given := by
  have h₁ : given.filter (·.keyword.isNone) = given := filter_eq_self.mpr fun a ha => by
    simp [hgiven a ha]
  have h₂ : keys.filter (·.keyword.isNone) = [] := by
    rw [filter_eq_nil_iff]
    intro a ha
    simp [Option.isNone_iff_eq_none, ← Option.isSome_iff_ne_none, hkeys a ha]
  rw [Argument.positional, filter_append, h₁, h₂, append_nil]

theorem named_append (hgiven : ∀ a ∈ given, a.keyword = none)
    (hkeys : ∀ a ∈ keys, a.keyword.isSome = true) :
    Argument.named (given ++ keys) = keys := by
  have h₁ : given.filter (·.keyword.isSome) = [] := by
    rw [filter_eq_nil_iff]
    intro a ha
    simp [hgiven a ha]
  have h₂ : keys.filter (·.keyword.isSome) = keys := filter_eq_self.mpr hkeys
  rw [Argument.named, filter_append, h₁, h₂, nil_append]

end Append

end Argument

/-- The language's rule for which arguments a parameter list accepts. -/
structure Accepts {α : Type} (params : List ParamSpec) (items : List (Argument α)) : Prop where
  /-- Every positional argument has a parameter of its own or one that collects the surplus. -/
  room : (Argument.positional items).length ≤ params.countP (·.kind.isPositional) ∨
    ∃ p ∈ params, p.kind = .varPositional
  /-- A keyword names a parameter that keywords can name and that no positional argument serves. -/
  free : ∀ a ∈ Argument.named items, ∀ i p, params[i]? = some p → a.keyword = some p.name →
    p.kind = .positionalOrKeyword ∧ (Argument.positional items).length ≤ i ∨ p.kind = .keywordOnly
  /-- No two keywords name one parameter. -/
  once : (Argument.named items).Pairwise fun a b => ∀ p ∈ params, a.keyword = some p.name →
    b.keyword ≠ some p.name
  /-- A keyword that names no parameter is collected. -/
  covered : ∀ a ∈ Argument.named items, (∀ p ∈ params, a.keyword ≠ some p.name) →
    ∃ p ∈ params, p.kind = .varKeyword
  /-- A plain parameter that receives nothing has a default. -/
  served : ∀ i p, params[i]? = some p → p.kind.isVariadic = false →
    ¬(p.kind.isPositional ∧ i < (Argument.positional items).length) →
    (∀ a ∈ Argument.named items, a.keyword ≠ some p.name) → p.hasDefault = true

/-- What the language's rule gives the parameter with number `i`. -/
def boundByRule {α : Type} (params : List ParamSpec) (items : List (Argument α)) (i : Nat)
    (p : ParamSpec) :
    BoundParam α :=
  match p.kind with
  | .varPositional => { param := i, arguments := (Argument.positional items).drop i }
  | .varKeyword => { param := i, arguments := Argument.extra params items }
  | .keywordOnly => ofName
  | .positionalOnly | .positionalOrKeyword =>
    match (Argument.positional items)[i]? with
    | some a => { param := i, arguments := [a] }
    | none => ofName
where
  /-- The argument with the parameter's name, or else the default. -/
  ofName : BoundParam α :=
    match (Argument.named items).find? (·.keyword == some p.name) with
    | some a => { param := i, arguments := [a] }
    | none => { param := i, fromDefault := true }

namespace Table

variable {α : Type}

private theorem mem_of_mem_set {value : α} {entry : Text × α} {table : Table α}
    (h : entry ∈ set name value table) : entry = (name, value) ∨ entry ∈ table := by
  fun_induction set name value table <;> grind

private theorem mem_set_self (name : Text) (value : α) (table : Table α) :
    (name, value) ∈ set name value table := by
  fun_induction set name value table <;> grind

private theorem mem_set_of_ne {value : α} {entry : Text × α} {table : Table α}
    (h : entry ∈ table) (hne : entry.1 ≠ name) : entry ∈ set name value table := by
  fun_induction set name value table <;> grind

/-- A table of pairs with distinct names holds exactly these pairs. -/
theorem mem_ofList_iff {pairs : List (Text × α)} (hd : (pairs.map (·.1)).Nodup) (entry : Text × α) :
    entry ∈ ofList pairs ↔ entry ∈ pairs := by
  have general : ∀ (pairs : List (Text × α)) (table : Table α), (pairs.map (·.1)).Nodup →
      (∀ e ∈ table, ∀ f ∈ pairs, e.1 ≠ f.1) →
      (entry ∈ pairs.foldl (fun table pair => set pair.1 pair.2 table) table ↔
        entry ∈ table ∨ entry ∈ pairs) := by
    intro pairs
    induction pairs with
    | nil => simp
    | cons pair rest ih =>
      intro table hd hf
      obtain ⟨hn, hd⟩ := nodup_cons.mp hd
      have hfresh : ∀ e ∈ set pair.1 pair.2 table, ∀ f ∈ rest, e.1 ≠ f.1 := by
        intro e he f hmem
        rcases mem_of_mem_set he with rfl | he
        · intro heq
          exact hn (mem_map.mpr ⟨f, hmem, heq.symm⟩)
        · exact hf e he f (mem_cons_of_mem _ hmem)
      rw [foldl_cons, ih _ hd hfresh, mem_cons]
      constructor
      · rintro (h | h)
        · exact (mem_of_mem_set h).elim (fun h => .inr (.inl h)) .inl
        · exact .inr (.inr h)
      · rintro (h | rfl | h)
        · exact .inl (mem_set_of_ne h (hf entry h pair mem_cons_self))
        · exact .inl (mem_set_self _ _ _)
        · exact .inr h
  simpa [ofList] using general pairs [] hd (by simp)

end Table

namespace ParamSpec

/-- The table by name holds exactly the parameters. -/
theorem mem_byName_iff (hd : (params.map (·.name)).Nodup) (name : Text) (p : ParamSpec) :
    (name, p) ∈ byName params ↔ p ∈ params ∧ p.name = name := by
  have hkeys : ((params.map fun p => (p.name, p)).map (·.1)).Nodup := by
    rw [map_map]
    exact hd
  rw [byName, Table.mem_ofList_iff hkeys]
  simp only [mem_map, Prod.mk.injEq]
  grind

theorem number?_eq_none_iff :
    number? params name = none ↔ ∀ p ∈ params, p.name ≠ name := by
  simp only [number?, Option.map_eq_none_iff, getLast?_eq_none_iff, filter_eq_nil_iff, beq_iff_eq]
  constructor
  · intro h p hp
    obtain ⟨i, hi⟩ := mem_iff_getElem?.mp hp
    exact h (p, i) (mem_zipIdx_iff_getElem?.mpr hi)
  · intro h entry he
    exact h entry.1 (mem_of_getElem? (mem_zipIdx_iff_getElem?.mp he))

/-- A name of a parameter list without repeated names leads back to the parameter's number. -/
theorem number?_eq_some (hd : (params.map (·.name)).Nodup) {i : Nat} {p : ParamSpec}
    (hp : params[i]? = some p) : number? params p.name = some i := by
  cases hn : number? params p.name with
  | none => exact absurd rfl (number?_eq_none_iff.mp hn p (mem_of_getElem? hp))
  | some j =>
    obtain ⟨entry, hlast, rfl⟩ := Option.map_eq_some_iff.mp hn
    obtain ⟨hmem, hname⟩ := mem_filter.mp (mem_of_getLast? hlast)
    have hq := mem_zipIdx_iff_getElem?.mp hmem
    have hi : (params.map (·.name))[i]? = some p.name := by simp [hp]
    have hj : (params.map (·.name))[entry.2]? = some p.name := by
      simp only [getElem?_map, hq, Option.map_some, beq_iff_eq.mp hname]
    have hlt : i < (params.map (·.name)).length := (List.getElem?_eq_some_iff.mp hi).1
    rw [(getElem?_inj hlt hd).mp (hi.trans hj.symm)]

end ParamSpec

end NameInference

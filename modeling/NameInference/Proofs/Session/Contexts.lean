import NameInference.Proofs.Session.Stability
import NameInference.Proofs.Value.References

/-!
# Contexts of scopes

The context of a scope is made by making the contexts of the scopes around it, one inside the other,
from the module on. In a session whose handles lead to what was interned and whose values refer
downwards, the context is always made, the outermost context around it is the module, and making it
once more changes nothing.
-/

namespace NameInference

variable {owner : Option ValueId}

namespace Values

variable {values later : Values} {id parent callee : ValueId} {node : Place}

namespace Descending

variable (h : values.Descending)

include h

theorem root_of_parent? (hparent : values.parent? id = some parent) :
    values.root id = values.root parent := by
  rw [root, hparent]
  exact dif_pos (h.parent_lt hparent)

/-- Leaving the classes around leads to no other outermost context. -/
theorem root_beyondClasses (id : ValueId) :
    values.root (values.beyondClasses id) = values.root id := by
  fun_induction values.beyondClasses id with
  | case1 | case4 => rfl
  | case2 id hclass p hparent hlt ih => rw [ih, h.root_of_parent? hparent]
  | case3 id hclass p hparent hlt => exact absurd (h.parent_lt hparent) hlt

theorem parent?_of_keeps (hkeeps : values.Keeps later) (hlt : id < values.size) :
    later.parent? id = values.parent? id := by
  fun_induction values.parent? id with
  | case1 id node p hget | case2 id node p owner hget => rw [parent?, hkeeps.get?_eq hlt, hget]
  | case3 id callee arguments hget =>
    have hcallee : callee < id := h id _ hget callee (by simp [Value.references])
    rw [parent?, hkeeps.get?_eq hlt, hget]
    simp only [function?, hkeeps.get?_eq (Nat.lt_trans hcallee hlt)]
  | case4 id cls arguments display hget hcls ih
  | case6 id cls parameters hget hcls ih
  | case8 id kind cls extra label node hget hcls ih =>
    rw [parent?, hkeeps.get?_eq hlt, hget]
    exact (dif_pos hcls).trans (ih (Nat.lt_trans hcls hlt))
  | case5 id cls arguments display hget hcls
  | case7 id cls parameters hget hcls
  | case9 id kind cls extra label node hget hcls =>
    exact absurd (h id _ hget cls (by simp [Value.references])) hcls
  | case10 id =>
    rw [parent?, hkeeps.get?_eq hlt]
    split <;> grind

/-- The outermost context stays the same. -/
theorem root_of_keeps (hkeeps : values.Keeps later) (hlt : id < values.size) :
    later.root id = values.root id := by
  fun_induction values.root id with
  | case1 id hparent => rw [root, h.parent?_of_keeps hkeeps hlt, hparent]
  | case2 id p hparent hp ih =>
    rw [root, h.parent?_of_keeps hkeeps hlt, hparent]
    exact (dif_pos hp).trans (ih (Nat.lt_trans hp hlt))
  | case3 id p hparent hp => exact absurd (h.parent_lt hparent) hp

/-- An execution has the outermost context of its function. -/
theorem root_of_execution {arguments : ArgumentsId}
    (hget : values.get? id = some (.execution callee arguments))
    (hcallee : values.get? callee = some (.function node parent owner)) :
    values.root id = values.root callee := by
  have hup : values.parent? callee = some parent := by rw [parent?, hcallee]
  have hsame : values.parent? id = some parent := by
    rw [parent?, hget]
    simp only [function?, hcallee, Option.map_some]
  rw [h.root_of_parent? hsame, h.root_of_parent? hup]

end Descending

end Values

namespace Session

variable {s t u : Session} {context inner id : ValueId}

/-- Handles lead to what was interned, and references lead downwards. -/
structure Orderly (s : Session) : Prop where
  consistent : s.values.Consistent
  descending : s.values.Descending

/-- The second session has a context inside the context of the first, for which values were interned
and no question was asked. -/
structure Opens (s : Session) (context : ValueId) (t : Session) (inner : ValueId) : Prop where
  evolves : s.Evolves t
  orderly : t.Orderly
  lt_size : inner < t.values.size
  root_eq : t.values.root inner = s.values.root context
  memo_eq : t.memo = s.memo

theorem Opens.refl (hs : s.Orderly) (hlt : context < s.values.size) : s.Opens context s context :=
  ⟨.refl s, hs, hlt, rfl, rfl⟩

theorem Opens.trans (h : s.Opens context t inner) (h' : t.Opens inner u id) :
    s.Opens context u id where
  evolves := h.evolves.trans h'.evolves
  orderly := h'.orderly
  lt_size := h'.lt_size
  root_eq := h'.root_eq.trans h.root_eq
  memo_eq := h'.memo_eq.trans h.memo_eq

end Session

namespace Infer

open Session

variable (calls : Calls) {s t : Session} {context module callee : ValueId} {node scope : Place}

/-- What is made of handles that are there is interned, and its key is found at its handle. -/
theorem exists_intern (hs : s.Orderly) (value : Value Place)
    (hissued : ∀ r ∈ value.references, r < s.values.size) :
    ∃ id t found, intern value calls s = (.ok id, t) ∧ s.Evolves t ∧ t.Orderly ∧ t.memo = s.memo ∧
      t.values.get? id = some found ∧ found.map Place.key = value.map Place.key := by
  have hrun : intern value calls s = (.ok (s.intern value).1, (s.intern value).2) := rfl
  obtain ⟨found, hget, hkey⟩ := exists_get?_of_intern hs.consistent hrun
  have hevolves := s.evolves_intern value
  exact ⟨_, _, found, hrun, hevolves,
    ⟨hevolves.consistent hs.consistent, hs.descending.intern value hissued⟩, rfl, hget, hkey⟩

theorem opens_makeClass (hs : s.Orderly) (hlt : context < s.values.size) (node : Place) :
    ∃ id t, makeClass node context calls s = (.ok id, t) ∧ s.Opens context t id := by
  obtain ⟨id, t, found, hrun, hevolves, ht, hmemo, hget, hkey⟩ :=
    exists_intern calls hs (.cls node context) (by simpa [Value.references] using hlt)
  refine ⟨id, t, hrun, hevolves, ht, Arena.lt_size_of_get? hget, ?_, hmemo⟩
  cases found with
  | cls node' parent =>
    obtain rfl : parent = context := (Value.cls.inj hkey).2
    rw [ht.descending.root_of_parent? (by rw [Values.parent?, hget]),
      hs.descending.root_of_keeps hevolves.values hlt]
  | _ => cases hkey

/-- A function is made in the first context around that is no class. -/
theorem opens_makeFunction (hs : s.Orderly) (hlt : context < s.values.size) (node : Place) :
    ∃ id t node' parent owner, makeFunction node context calls s = (.ok id, t) ∧
      s.Opens context t id ∧ t.values.get? id = some (.function node' parent owner) := by
  have hbeyond : s.values.beyondClasses context < s.values.size :=
    Nat.lt_of_le_of_lt (hs.descending.beyondClasses_le context) hlt
  obtain ⟨id, t, found, hrun, hevolves, ht, hmemo, hget, hkey⟩ := exists_intern calls hs
    (.function node (s.values.beyondClasses context) (if s.values.isClass context then some context
      else none)) (by
      intro r hr
      simp only [Value.references, List.mem_cons, Option.mem_toList,
        Option.ite_none_right_eq_some] at hr
      rcases hr with rfl | ⟨-, hr⟩
      · exact hbeyond
      · exact Option.some.inj hr ▸ hlt)
  cases found with
  | function node' parent owner =>
    obtain ⟨-, rfl, -⟩ := Value.function.inj hkey
    refine ⟨id, t, node', _, owner, hrun, ⟨hevolves, ht, Arena.lt_size_of_get? hget, ?_, hmemo⟩,
      hget⟩
    rw [ht.descending.root_of_parent? (by rw [Values.parent?, hget]),
      hs.descending.root_of_keeps hevolves.values hbeyond, hs.descending.root_beyondClasses]
  | _ => cases hkey

theorem opens_makeExecution (hs : s.Orderly) {parent : ValueId}
    (hcallee : s.values.get? callee = some (.function node parent owner))
    (arguments : ArgumentsId) :
    ∃ id t, makeExecution callee arguments calls s = (.ok id, t) ∧ s.Opens callee t id := by
  have hlt := Arena.lt_size_of_get? hcallee
  obtain ⟨id, t, found, hrun, hevolves, ht, hmemo, hget, hkey⟩ :=
    exists_intern calls hs (.execution callee arguments) (by simpa [Value.references] using hlt)
  refine ⟨id, t, hrun, hevolves, ht, Arena.lt_size_of_get? hget, ?_, hmemo⟩
  cases found with
  | execution callee' arguments' =>
    obtain ⟨rfl, rfl⟩ := Value.execution.inj hkey
    rw [ht.descending.root_of_execution hget (hevolves.values.items _ _ hcallee),
      hs.descending.root_of_keeps hevolves.values hlt]
  | _ => cases hkey

theorem opens_makeAnonymousExecution (hs : s.Orderly) {parent : ValueId}
    (hcallee : s.values.get? callee = some (.function node parent owner)) :
    ∃ id t, makeAnonymousExecution callee calls s = (.ok id, t) ∧ s.Opens callee t id := by
  have hfunction : s.values.function? callee = some (node, parent, owner) := by
    rw [Values.function?, hcallee]
  rw [makeAnonymousExecution, bind_of_ok (a := s.values.function? callee) rfl, hfunction]
  cases owner with
  | none => exact opens_makeExecution calls hs hcallee 0
  | some owner =>
    have hlt := Arena.lt_size_of_get? hcallee
    have howner : owner < callee :=
      hs.descending callee _ hcallee owner (by simp [Value.references])
    obtain ⟨receiver, t, -, hrun, hevolves, ht, hmemo, -⟩ :=
      exists_intern calls hs (.inst owner 0 none)
      (by simpa [Value.references] using Nat.lt_trans howner hlt)
    -- The list of arguments is interned apart from the values.
    let list : ArgumentList Place := { isAnonymous := true, receiver := some receiver }
    have hlist := t.evolves_internArguments list
    obtain ⟨id, u, hexecution, hopens⟩ :=
      opens_makeExecution calls (s := (t.internArguments list).2)
      ⟨hlist.consistent ht.consistent, ht.descending⟩ (hevolves.values.items _ _ hcallee)
        (t.internArguments list).1
    refine ⟨id, u, (bind_of_ok hrun).trans ((bind_of_ok rfl).trans hexecution),
      (hevolves.trans hlist).trans hopens.evolves, hopens.orderly, hopens.lt_size, ?_,
      hopens.memo_eq.trans hmemo⟩
    exact hopens.root_eq.trans (hs.descending.root_of_keeps hevolves.values hlt)

/-- One step from a context to that of a scope in it. -/
theorem opens_enterScope (hs : s.Orderly) (hlt : context < s.values.size) (node : Place) :
    ∃ id t, enterScope context node calls s = (.ok id, t) ∧ s.Opens context t id := by
  unfold enterScope
  split
  · exact opens_makeClass calls hs hlt node
  · obtain ⟨callee, t, node', parent, owner, hrun, hopens, hget⟩ :=
      opens_makeFunction calls hs hlt node
    obtain ⟨id, u, hexecution, hinner⟩ := opens_makeAnonymousExecution calls hopens.orderly hget
    exact ⟨id, u, (bind_of_ok hrun).trans hexecution, hopens.trans hinner⟩

/-- The context of a scope is always made. -/
theorem opens_contextOfScope (hs : s.Orderly) (hlt : module < s.values.size) (scope : Place) :
    ∃ id t, contextOfScope module scope calls s = (.ok id, t) ∧ s.Opens module t id := by
  rw [contextOfScope_eq]
  generalize ((scope :: scope.scopesAround).filter Place.opensBody).reverse = chain
  induction chain generalizing module s with
  | nil => exact ⟨module, s, rfl, .refl hs hlt⟩
  | cons node chain ih =>
    obtain ⟨context, t, hrun, hopens⟩ := opens_enterScope calls hs hlt node
    obtain ⟨id, u, hrest, hinner⟩ := ih hopens.orderly hopens.lt_size
    exact ⟨id, u, by rw [List.foldlM_cons, bind_of_ok hrun, hrest], hopens.trans hinner⟩

/-- Made once more, a context is the same and nothing changes. -/
theorem contextOfScope_again {calls : Calls} (hcalls : calls.Steady) (hs : s.Orderly)
    (hmodule : s.values.isModule module = true)
    (hrun : contextOfScope module scope calls s = (.ok context, t)) :
    contextOfScope module scope calls t = (.ok context, t) := by
  have hsettled := Values.settled_of_isModule hmodule
  obtain ⟨_, _, hfirst, hopens⟩ := opens_contextOfScope calls hs hsettled.lt_size scope
  cases hfirst.symm.trans hrun
  obtain ⟨n, hn⟩ :=
    repeats_contextOfScope hcalls hsettled hs.consistent scope context t hrun t (.refl t)
  obtain ⟨_, _, hsecond, hagain⟩ := opens_contextOfScope calls hopens.orderly
    (Nat.lt_of_lt_of_le hsettled.lt_size hopens.evolves.values.size_le) scope
  cases hsecond.symm.trans hn
  -- No question was asked, so no answer was counted.
  have hhits : t.memo.hits + n = t.memo.hits := congrArg Memo.hits hagain.memo_eq
  obtain rfl : n = 0 := by omega
  exact hn

end Infer

end NameInference

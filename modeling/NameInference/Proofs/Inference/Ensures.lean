import NameInference.Inference.Basic
import NameInference.Proofs.Value.Members

/-!
# Results of inference steps

A step of inference may fail. What holds of every result that it does give is stated by
`Infer.Ensures`. Steps one after the other and loops run as their parts do.
-/

namespace NameInference.Infer

/-- Every result of a step has a property. -/
def Ensures {α : Type} (step : Infer α) (P : α → Prop) : Prop :=
  ∀ calls s a s', step calls s = (.ok a, s') → P a

section Ensures

variable {α β : Type}

/-- A sequence of steps goes on with the result of the first and stops at a failure. -/
theorem bind_apply {step : Infer α} {next : α → Infer β} {calls : Calls} {s : Session} :
    (step >>= next) calls s =
      match step calls s with
      | (.ok a, t) => next a calls t
      | (.error e, t) => (.error e, t) := by
  change ExceptT.bind (step calls) (fun a => next a calls) s = _
  simp only [ExceptT.bind, ExceptT.mk]
  change (match step calls s with | (r, t) => ExceptT.bindCont (fun a => next a calls) r t) = _
  rcases step calls s with ⟨_ | _, _⟩ <;> rfl

theorem bind_of_ok {step : Infer α} {next : α → Infer β} {calls : Calls} {s t : Session} {a : α}
    (h : step calls s = (.ok a, t)) : (step >>= next) calls s = next a calls t := by
  rw [bind_apply, h]

/-- A sequence of steps succeeds exactly if both do. -/
theorem bind_eq_ok_iff {step : Infer α} {next : α → Infer β} {calls : Calls} {s s' : Session}
    {b : β} :
    (step >>= next) calls s = (.ok b, s') ↔
      ∃ a t, step calls s = (.ok a, t) ∧ next a calls t = (.ok b, s') := by
  rw [bind_apply]
  rcases step calls s with ⟨_ | a, t⟩
  · constructor
    · intro h
      cases h
    · rintro ⟨_, _, h, _⟩
      cases h
  · constructor
    · intro h
      exact ⟨a, t, rfl, h⟩
    · rintro ⟨_, _, h, hnext⟩
      cases h
      exact hnext

theorem ensures_pure {P : α → Prop} {a : α} (h : P a) : Ensures (pure a) P := by
  intro calls s b s' hb
  obtain rfl : a = b := by
    injection hb with hb
    injection hb
  exact h

theorem ensures_bind {step : Infer α} {next : α → Infer β} {P : β → Prop}
    (h : ∀ a, Ensures (next a) P) :
    Ensures (step >>= next) P := by
  intro calls s b s' hb
  obtain ⟨a, t, _, hnext⟩ := bind_eq_ok_iff.mp hb
  exact h a calls t b s' hnext

theorem ensures_mapM {step : α → Infer β} {P : β → Prop} (h : ∀ a, Ensures (step a) P)
    (items : List α) :
    Ensures (items.mapM step) fun out => ∀ b ∈ out, P b := by
  induction items with
  | nil => exact ensures_pure (by simp)
  | cons a items ih =>
    rw [List.mapM_cons]
    intro calls s out s' hout
    obtain ⟨b, t, hb, hout⟩ := bind_eq_ok_iff.mp hout
    obtain ⟨rest, t', hrest, hout⟩ := bind_eq_ok_iff.mp hout
    have hall : ∀ c ∈ b :: rest, P c :=
      List.forall_mem_cons.mpr ⟨h a calls s b t hb, ih calls t rest t' hrest⟩
    exact ensures_pure (P := fun out => ∀ c ∈ out, P c) hall calls t' out s' hout

end Ensures

section Runs

variable {α : Type} {calls : Calls} {s : Session}

theorem query_run (f : Values → α) : query f calls s = (.ok (f s.values), s) := rfl

/-- A loop keeps what each round of it keeps; the rounds are told apart by the items that are
behind. -/
theorem exists_of_forIn {items : List α} {body : α → PUnit → Infer (ForInStep PUnit)}
    {I : List α → Session → Prop}
    (hround : ∀ done item rest s, items = done ++ item :: rest → I done s →
      ∃ t, body item ⟨⟩ calls s = (.ok (.yield ⟨⟩), t) ∧ I (done ++ [item]) t) (hs : I [] s) :
    ∃ t, forIn items PUnit.unit body calls s = (.ok ⟨⟩, t) ∧ I items t := by
  have hrest (done rest : List α) (s : Session) (hitems : items = done ++ rest) (hs : I done s) :
      ∃ t, forIn rest PUnit.unit body calls s = (.ok ⟨⟩, t) ∧ I items t := by
    induction rest generalizing done s with
    | nil =>
      rw [List.append_nil] at hitems
      exact ⟨s, rfl, hitems ▸ hs⟩
    | cons item rest ih =>
      obtain ⟨t, hbody, ht⟩ := hround done item rest s hitems hs
      obtain ⟨u, hforIn, hu⟩ := ih (done ++ [item]) t (by simpa using hitems) ht
      exact ⟨u, by rw [List.forIn_cons, bind_of_ok hbody]; exact hforIn, hu⟩
  exact hrest [] items s rfl hs

end Runs

theorem collect_singleton {α : Type} (item : α) (f : α → Infer ValueSet) :
    collect [item] f = f item := by
  have hjoin : (∅ : ValueSet).join = id := funext ValueSet.empty_join
  simp [collect, hjoin]

end NameInference.Infer

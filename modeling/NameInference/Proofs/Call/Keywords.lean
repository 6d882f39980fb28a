import NameInference.Proofs.Call.Serving

/-!
# Where keyword arguments go

A keyword argument serves the parameter that has its name, whatever the kind of that parameter is,
and one that has the name of no parameter is collected. This is kept by every step of matching, for
every order of parameters and arguments.
-/

namespace NameInference.Matching

open List

variable {α : Type} {params : List ParamSpec}

/-- Every keyword argument that a parameter gets is its only argument and has its name, or is
collected by it. -/
def KeywordsPlaced (params : List ParamSpec) (b : BoundParam α) : Prop :=
  ∀ a ∈ b.arguments, ∀ key, a.keyword = some key → ∃ p, params[b.param]? = some p ∧
    (p.name = key ∧ b.arguments = [a] ∨ p.kind = .varKeyword ∧ ∀ q ∈ params, q.name ≠ key)

theorem keywordsPlaced_of_positional {b : BoundParam α} (h : ∀ a ∈ b.arguments, a.keyword = none) :
    KeywordsPlaced params b := by
  intro a ha key hkey
  rw [h a ha] at hkey
  cases hkey

/-- Keyword arguments have their places in all that was given so far, and those that wait have the
name of no parameter. -/
structure Placing (params : List ParamSpec) (m : Matching α) : Prop where
  used : ∀ e ∈ m.used, KeywordsPlaced params e.2
  bound : ∀ b ∈ m.bound, KeywordsPlaced params b
  unmatched : ∀ e ∈ m.unmatched, ∀ key, e.2.keyword = some key → ∀ q ∈ params, q.name ≠ key

theorem Placing.takeKeyword {m : Matching α} (h : Placing params m) {a : Argument α} {key : Text}
    (ha : a.keyword = some key) : Placing params (m.takeKeyword params key a) := by
  obtain ⟨hk, he⟩ | ⟨-, -, he⟩ | ⟨-, -, i, hi, he⟩ := takeKeyword_cases params m ha
  · have hnone : ∀ q ∈ params, q.name ≠ key := by
      rintro q hq rfl
      rw [isKnown_iff.mpr ⟨q, hq, ha⟩] at hk
      cases hk
    rw [he]
    refine ⟨h.used, h.bound, forall_mem_append.mpr ⟨h.unmatched, forall_mem_singleton.mpr ?_⟩⟩
    intro key' hkey'
    rw [ha] at hkey'
    exact Option.some.inj hkey' ▸ hnone
  · rw [he]
    exact ⟨h.used, h.bound, h.unmatched⟩
  · obtain ⟨⟨p, _⟩, hlast, rfl⟩ := Option.map_eq_some_iff.mp hi
    obtain ⟨hmem, hname⟩ := mem_filter.mp (mem_of_getLast? hlast)
    have hp := mem_zipIdx_iff_getElem?.mp hmem
    rw [he]
    refine ⟨forall_mem_cons.mpr ⟨?_, h.used⟩, h.bound, h.unmatched⟩
    intro b hb key' hkey'
    obtain rfl := mem_singleton.mp hb
    rw [ha] at hkey'
    exact ⟨p, hp, .inl ⟨(beq_iff_eq.mp hname).trans (Option.some.inj hkey'), rfl⟩⟩

/-- Behind the keyword arguments that come next stands an argument without a keyword, if any. -/
theorem Placing.takeKeywords {m : Matching α} (h : Placing params m) (rest : List (Argument α)) :
    Placing params (takeKeywords params rest m) ∧
      ∀ a ∈ (Matching.takeKeywords params rest m).rest.head?, a.keyword = none := by
  fun_induction Matching.takeKeywords params rest m with
  | case1 m => exact ⟨⟨h.used, h.bound, h.unmatched⟩, by simp⟩
  | case2 m a rest ha => exact ⟨⟨h.used, h.bound, h.unmatched⟩, by simpa using ha⟩
  | case3 m a rest key ha ih => exact ih (h.takeKeyword ha)

theorem Placing.bind {m : Matching α} (h : Placing params m) (p : ParamSpec) {b : BoundParam α}
    (hb : KeywordsPlaced params b) : Placing params (m.bind p b) := by
  refine ⟨?_, forall_mem_append.mpr ⟨h.bound, forall_mem_singleton.mpr hb⟩, h.unmatched⟩
  simp only [Matching.bind]
  split
  · exact h.used
  · exact forall_mem_cons.mpr ⟨hb, h.used⟩

theorem Placing.bindNothing {m : Matching α} (h : Placing params m) (reportCounts : Bool)
    (p : ParamSpec) (i : Nat) :
    Placing params (m.bindNothing reportCounts p i) := by
  have hnothing {b : BoundParam α} (hb : b.arguments = []) : KeywordsPlaced params b :=
    keywordsPlaced_of_positional (by simp [hb])
  unfold Matching.bindNothing
  split
  · exact h.bind p (hnothing rfl)
  · refine Placing.bind ?_ p (hnothing rfl)
    split
    · exact ⟨h.used, h.bound, h.unmatched⟩
    · exact h

theorem Placing.serve {m : Matching α} (h : Placing params m) (reportCounts : Bool) {p : ParamSpec}
    {i : Nat} (hp : params[i]? = some p) : Placing params (serve params reportCounts m (p, i)) := by
  obtain ⟨h, hrest⟩ := h.takeKeywords m.rest
  simp only [Matching.serve]
  generalize Matching.takeKeywords params m.rest m = m at h hrest
  split
  · next b hb =>
    obtain ⟨before, after, hsplit, -⟩ := lookup_eq_some_iff.mp hb
    have hb : KeywordsPlaced params b := h.used (p.name, b) (by simp [hsplit])
    exact ⟨h.used, forall_mem_append.mpr ⟨h.bound, forall_mem_singleton.mpr hb⟩, h.unmatched⟩
  · fun_cases serveNext m reportCounts p i with
    | case1 =>
      apply Placing.bind
      · exact ⟨h.used, h.bound, h.unmatched⟩
      · exact keywordsPlaced_of_positional fun a ha =>
          Option.isNone_iff_eq_none.mp (all_eq_true.mp all_takeWhile a ha)
    | case2 hkind arguments next =>
      -- What was collected has the name of no parameter.
      have hcollected :
          KeywordsPlaced params { param := i, arguments := m.unmatched.map Prod.snd } := by
        intro a ha key hkey
        obtain ⟨e, he, rfl⟩ := mem_map.mp ha
        exact ⟨p, hp, .inr ⟨hkind, h.unmatched e he key hkey⟩⟩
      have hnext : next.used = m.used ∧ next.bound = m.bound := by
        simp only [next]
        split
        · split <;> exact ⟨rfl, rfl⟩
        · exact ⟨rfl, rfl⟩
      exact Placing.bind ⟨hnext.1 ▸ h.used, hnext.2 ▸ h.bound, by simp⟩ p hcollected
    | case3 => exact h.bindNothing reportCounts p i
    | case4 _ a rest hm | case6 _ a rest hm =>
      apply Placing.bind
      · exact ⟨h.used, h.bound, h.unmatched⟩
      · exact keywordsPlaced_of_positional (forall_mem_singleton.mpr (hrest a (by simp [hm])))
    | case5 | case7 => exact h.bindNothing reportCounts p i

/-- For every parameter list and every argument list, a keyword argument is given only to the
parameter that has its name, as its only argument, or, if none has its name, to one that collects
keywords. So a parameter that is positional only or collects positional arguments gets a keyword
argument only under its own name. -/
theorem keyword_serves_namesake (params : List ParamSpec) (reportCounts : Bool)
    (arguments : List (Argument α)) :
    ∀ b ∈ (run params reportCounts arguments).1, ∀ a ∈ b.arguments, ∀ key, a.keyword = some key →
      ∃ p, params[b.param]? = some p ∧
        (p.name = key ∧ b.arguments = [a] ∨ p.kind = .varKeyword ∧ ∀ q ∈ params, q.name ≠ key) := by
  have hrun : Placing params
    (params.zipIdx.foldl (serve params reportCounts) { rest := arguments }) :=
    List.foldlRecOn params.zipIdx _ ⟨by simp, by simp, by simp⟩ fun m hm e he =>
      hm.serve reportCounts (mem_zipIdx_iff_getElem?.mp he)
  exact hrun.bound

/-- The first parameter, `a`, is positional only and has a default; the second one, `b`, collects
keywords. -/
def namesakeSample : List ParamSpec :=
  [⟨[0x61], .positionalOnly, true⟩, ⟨[0x62], .varKeyword, false⟩]

theorem keyword_serves_namesake_sample :
    let a : Argument Nat := ⟨some [0x63], 1, ⟨1, 1⟩⟩
    ⟨1, [a], false, false⟩ ∈ (run namesakeSample true [a]).1 ∧ ∃ p, namesakeSample[1]? = some p ∧
      (p.name = [0x63] ∧ [a] = [a] ∨
        p.kind = .varKeyword ∧ ∀ q ∈ namesakeSample, q.name ≠ [0x63]) :=
  have h : ⟨1, [⟨some [0x63], 1, ⟨1, 1⟩⟩], false, false⟩ ∈
      (run namesakeSample true [(⟨some [0x63], 1, ⟨1, 1⟩⟩ : Argument Nat)]).1 :=
        mem_cons_of_mem _ mem_cons_self
  ⟨h, keyword_serves_namesake _ _ _ _ h _ mem_cons_self _ rfl⟩

/-- A keyword `a` fills the parameter that is positional only, which should keep its default. -/
theorem keyword_fills_positionalOnly :
    (run namesakeSample true [(⟨some [0x61], 2, ⟨1, 1⟩⟩ : Argument Nat)]).1 =
      [⟨0, [⟨some [0x61], 2, ⟨1, 1⟩⟩], false, false⟩, ⟨1, [], false, false⟩] :=
  rfl

end NameInference.Matching

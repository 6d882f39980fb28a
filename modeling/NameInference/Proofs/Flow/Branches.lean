import NameInference.Proofs.Flow.Around

/-!
# Branches of flow statements

From an origin in another branch of a flow statement, what a place binds is seen according to the
statements around both. The innermost of these is the one whose branches keep them apart. An `if`
settles the matter: its branches exclude each other. A `try` leaves it open, and then the next flow
statement is asked, if there is one.
-/

namespace NameInference

open List NameInference.Module Place

namespace Place

variable {p q flow root : Place}

theorem childNumber?_of_path {inner : List Nat} {i : Nat} (htree : flow.tree = p.tree)
    (hpath : p.path = inner ++ i :: flow.path) : flow.childNumber? p = some i := by
  have hdepth : p.depth = inner.length + 1 + flow.depth := by
    have hlength := congrArg List.length hpath
    simp only [path, length_map, length_append, length_cons] at hlength
    simp only [depth]
    omega
  have hcovers : flow.covers p = true := by
    rw [covers, htree, hpath, BEq.rfl, Bool.true_and, isSuffixOf_iff_suffix]
    exact ((suffix_cons i _).trans (suffix_append inner _))
  have hindex : p.depth - flow.depth - 1 = inner.length := by omega
  rw [childNumber?, hcovers, Bool.true_and, decide_eq_true (by omega), if_pos rfl, hindex, hpath]
  simp

theorem branchOf_of_path (inner : List Nat) (i : Nat) (htree : flow.tree = p.tree)
    (hpath : p.path = inner ++ i :: flow.path) :
    flow.branchOf p = flow.node.form.branchOfPart i := by
  rw [branchOf, childNumber?_of_path htree hpath]

/-- What is in a branch of a flow statement is below it. -/
theorem mem_ancestors_of_branchOf (hroot : root.above = []) (hp : p ∈ root.walk)
    (hflow : flow ∈ root.walk) (hbranch : flow.branchOf p ≠ .header) : flow ∈ p.ancestors := by
  have hbelow : flow.covers p = true ∧ flow.depth < p.depth := by
    by_contra hnot
    rw [branchOf, childNumber?, if_neg (by simpa using hnot)] at hbranch
    exact hbranch rfl
  obtain ⟨hcovers, hdepth⟩ := hbelow
  rw [covers, Bool.and_eq_true, beq_iff_eq, isSuffixOf_iff_suffix] at hcovers
  obtain ⟨htree, inner, hpath⟩ := hcovers
  obtain ⟨inside, outside, habove, hinside, houtside⟩ := map_eq_append_iff.mp hpath.symm
  have hne : inside ≠ [] := by
    rintro rfl
    have hlength := congrArg List.length houtside
    simp only [path, length_map] at hlength
    simp only [depth, habove, nil_append] at hdepth
    omega
  obtain ⟨front, ⟨i, n⟩, rfl⟩ := (eq_nil_or_concat inside).resolve_left hne
  -- The way up leads through a place with the key of the flow statement, and keys are distinct.
  have hthrough : (⟨p.tree, n, outside⟩ : Place) ∈ p.ancestors :=
    mem_alongWay.mpr ⟨rfl, front, i, by simp [habove]⟩
  have hwalk := (mem_walk_of_mem_upwards hroot hp (mem_cons_of_mem _ hthrough)).1
  have hkey : (⟨p.tree, n, outside⟩ : Place).key = flow.key := by simp [key, path, houtside, htree]
  rwa [inj_on_of_nodup_map root.nodup_walk hwalk hflow hkey] at hthrough

/-- A place between a flow statement and another place leads to one branch of the statement only. -/
theorem branchOf_eq_of_between {f : Place} (hflow : flow ∈ f.ancestors) (hp : f ∈ p.ancestors)
    {g : Place} (hq : g ∈ q.ancestors) (hkey : f.key = g.key) :
    flow.branchOf p = flow.branchOf q := by
  obtain ⟨htree, inner, i, habove⟩ := mem_alongWay.mp hflow
  obtain ⟨htreep, innerp, j, habovep⟩ := mem_alongWay.mp hp
  obtain ⟨htreeq, innerq, k, haboveq⟩ := mem_alongWay.mp hq
  have hpath : g.path = inner.map (·.1) ++ i :: flow.path := by
    rw [← show f.path = g.path from congrArg PlaceKey.path hkey]
    simp [path, habove]
  have htreeg : f.tree = g.tree := congrArg PlaceKey.tree hkey
  rw [branchOf_of_path (innerp.map (·.1) ++ j :: inner.map (·.1)) i (htree.trans htreep),
    branchOf_of_path (innerq.map (·.1) ++ k :: inner.map (·.1)) i
      (htree.trans (htreeg.trans htreeq))]
  · have hq' : q.path = innerq.map (·.1) ++ k :: g.path := by simp [path, haboveq]
    rw [hq', hpath, append_assoc, cons_append]
  · simp [path, habovep, habove]

/-- The flow statements around two places that a flow statement keeps apart are that one and those
around it. -/
theorem filter_flowsAround {nearp nearq : List Place}
    (hp : p.flowsAround = nearp ++ flow :: flow.flowsAround)
    (hq : q.flowsAround = nearq ++ flow :: flow.flowsAround)
    (hbetween : ∀ f ∈ nearq, f ∈ q.ancestors ∧ flow ∈ f.ancestors)
    (hbranch : flow.branchOf p ≠ flow.branchOf q) :
    (q.flowsAround.filter fun f => p.flowsAround.any f.same) = flow :: flow.flowsAround := by
  have hnear : nearq.filter (fun f => p.flowsAround.any f.same) = [] := by
    rw [filter_eq_nil_iff]
    intro f hf hshared
    obtain ⟨g, hg, hsame⟩ := any_eq_true.mp hshared
    obtain ⟨hfq, hflow⟩ := hbetween f hf
    have hgp := mem_ancestors_of_mem_flowsAround hg
    exact hbranch (branchOf_eq_of_between hflow hfq hgp (beq_iff_eq.mp hsame)).symm
  have hfar : (flow :: flow.flowsAround).filter (fun f => p.flowsAround.any f.same) =
      flow :: flow.flowsAround := by
    rw [filter_eq_self]
    intro f hf
    refine any_eq_true.mpr ⟨f, ?_, by simp [same]⟩
    rw [hp]
    exact mem_append_right _ hf
  rw [hq, filter_append, hnear, hfar, nil_append]

theorem isFlow_of_isIf (h : flow.isIf = true) : flow.node.form.isFlow = true := by
  unfold isIf at h
  split at h
  · next hform => rw [hform]; rfl
  · cases h

theorem exists_form_of_isTry (h : flow.isTry = true) :
    ∃ body handlers orElse final, flow.node.form = .tryStmt body handlers orElse final := by
  unfold isTry at h
  split at h
  · next hform => exact ⟨_, _, _, _, hform⟩
  · cases h

/-- All of a `try` is in one of its branches. -/
theorem branchOf_ne_header_of_isTry (htry : flow.isTry = true) (hmem : flow ∈ p.ancestors) :
    flow.branchOf p ≠ .header := by
  obtain ⟨htree, inner, i, habove⟩ := mem_alongWay.mp hmem
  obtain ⟨body, handlers, orElse, final, hform⟩ := exists_form_of_isTry htry
  rw [branchOf_of_path (inner.map (·.1)) i htree (by simp [path, habove]), hform, Form.branchOfPart]
  split
  · decide
  · split
    · decide
    · split <;> decide

theorem branchKey_eq (h : flow.branchOf p ≠ .header) : flow.branchKey p = flow.branchOf p := by
  unfold branchKey
  split
  · next hheader => exact absurd hheader h
  · rfl

/-- What governs a place and is no scope stands within the scope of the place. -/
theorem depth_lt_of_governor? {s : Place} (h : p.governor? = some flow)
    (hflow : flow.node.form.isScope = false) (hs : p.scope? = some s) : s.depth < flow.depth := by
  rw [governor?] at h
  rw [scope?] at hs
  generalize p.above = above at h hs
  induction above with
  | nil => cases h
  | cons step rest ih =>
    rw [governorAlong] at h hs
    split at h
    · next hfound =>
      cases h
      rw [hflow, Bool.false_and, Bool.false_and, Bool.false_or, if_neg (by simp)] at hs
      exact depth_governorAlong hs
    · next hpassed =>
      rw [if_neg (by simp_all)] at hs
      exact ih h hs

theorem covers_of_mem_ancestors (h : flow ∈ p.ancestors) : flow.covers p = true := by
  obtain ⟨htree, inner, i, habove⟩ := mem_alongWay.mp h
  rw [covers, htree, BEq.rfl, Bool.true_and, isSuffixOf_iff_suffix]
  exact ⟨inner.map (·.1) ++ [i], by simp [path, habove]⟩

/-- From another branch of a `try` a place is excluded, or what stands around the `try` is asked
next, which holds both places in one branch. -/
theorem branchesMatch?_of_isTry (htry : flow.isTry = true) (hp : flow ∈ p.ancestors)
    (hq : flow ∈ q.ancestors) (hbranch : flow.branchOf p ≠ flow.branchOf q) :
    p.branchesMatch? q true (flow :: flow.flowsAround) =
      if flow.branchOf p = .handler ∧ flow.branchOf q = .orElse then none
      else some (!decide (flow.flowsAround = [])) := by
  obtain ⟨body, handlers, orElse, final, hform⟩ := exists_form_of_isTry htry
  have hif : flow.isIf = false := by simp [isIf, hform]
  rw [branchesMatch?]
  simp only [branchKey_eq (branchOf_ne_header_of_isTry htry hp),
    branchKey_eq (branchOf_ne_header_of_isTry htry hq), beq_eq_false_iff_ne.mpr hbranch, hif, htry,
    Bool.false_eq_true, if_false, Bool.false_or, Bool.true_and, Bool.and_eq_true, beq_iff_eq,
    and_comm]
  split
  · rfl
  · cases hflows : flow.flowsAround with
    | nil => rfl
    | cons outer rest =>
      have houter := mem_ancestors_of_mem_flowsAround
        (hflows ▸ mem_cons_self : outer ∈ flow.flowsAround)
      have hsame := branchOf_eq_of_between houter hp hq rfl
      simp [branchesMatch?, branchKey, hsame]

/-- The scope of a place is known by its key. -/
theorem scope?_eq_of_same {s : Place} (hroot : root.above = []) (hp : p ∈ root.walk)
    (hs : s ∈ root.walk) (hsame : p.scope?.any s.same = true) : p.scope? = some s := by
  cases hscope : p.scope? with
  | none => simp [hscope] at hsame
  | some found =>
    rw [hscope, Option.any_some, same, beq_iff_eq] at hsame
    rw [inj_on_of_nodup_map root.nodup_walk hs (mem_walk_of_scope? hroot hp hscope) hsame]

end Place

section

variable {source : Source} {m : Module} (h : Module.ofSource source = .ok m) {tree : Nat}
  {p q flow : Place}

include h

/-- The flow statements around a place lead through a flow statement that it is in a branch of,
unless the place belongs to a scope in between. -/
theorem Module.exists_flowsAround (hp : p ∈ (Place.root tree m).walk) (hmem : flow ∈ p.ancestors)
    (hflow : flow.node.form.isFlow = true) (hbranch : flow.branchOf p ≠ .header)
    (hscope : ∀ s, p.scope? = some s → s.depth < flow.depth) :
    ∃ nearer, p.flowsAround = nearer ++ flow :: flow.flowsAround ∧
      ∀ f ∈ nearer, f ∈ p.ancestors ∧ flow ∈ f.ancestors := by
  obtain ⟨htree, inner, i, habove⟩ := mem_alongWay.mp hmem
  have hpart : flow.branchOf p = flow.node.form.branchOfPart i :=
    branchOf_of_path (inner.map (·.1)) i htree (by simp [Place.path, habove])
  refine exists_flowsAround_of_passes h hp htree habove hflow ?_ fun x hx hholds => ?_
  · rw [hpart] at hbranch
    cases hform : flow.node.form <;> simp_all [Form.isTestPart, Form.branchOfPart]
  · obtain ⟨before, after, rfl⟩ := append_of_mem hx
    have hthrough : p.above = before ++ x :: (after ++ (i, flow.node) :: flow.above) := by
      simp [habove]
    obtain ⟨s, hs, hdepth⟩ := exists_scope?_of_holds hthrough hholds
    have hless := hscope s hs
    simp only [Place.depth, length_append, length_cons] at hless hdepth
    omega

/-- The flow statements that are around two places in different branches of one. -/
theorem Module.filter_flowsAround (hp : p ∈ (Place.root tree m).walk)
    (hq : q ∈ (Place.root tree m).walk) (hflow : flow ∈ (Place.root tree m).walk)
    (hkind : flow.node.form.isFlow = true) (hpbranch : flow.branchOf p ≠ .header)
    (hqbranch : flow.branchOf q ≠ .header) (hbranch : flow.branchOf p ≠ flow.branchOf q)
    (hpscope : ∀ s, p.scope? = some s → s.depth < flow.depth)
    (hqscope : ∀ s, q.scope? = some s → s.depth < flow.depth) :
    (q.flowsAround.filter fun f => p.flowsAround.any f.same) = flow :: flow.flowsAround := by
  have hpmem := mem_ancestors_of_branchOf rfl hp hflow hpbranch
  have hqmem := mem_ancestors_of_branchOf rfl hq hflow hqbranch
  obtain ⟨nearp, hpflows, -⟩ := exists_flowsAround h hp hpmem hkind hpbranch hpscope
  obtain ⟨nearq, hqflows, hbetween⟩ := exists_flowsAround h hq hqmem hkind hqbranch hqscope
  exact Place.filter_flowsAround hpflows hqflows hbetween hbranch

/-- What the positions of a place that a `try` governs and of an origin in another branch of the
`try` decide. -/
theorem Module.verdictByOrigin?_of_isTry (hp : p ∈ (Place.root tree m).walk)
    (hq : q ∈ (Place.root tree m).walk) (hgovernor : p.governor? = some flow)
    (htry : flow.isTry = true) (hscope : q.scope? = p.scope?) (hinside : flow ∈ q.ancestors)
    (hbranch : flow.branchOf p ≠ flow.branchOf q) :
    p.verdictByOrigin? q =
      if flow.branchOf p = .handler ∧ flow.branchOf q = .orElse then some .unreachable
      else if flow.flowsAround = [] then none else some .reachable := by
  obtain ⟨body, handlers, orElse, final, hform⟩ := exists_form_of_isTry htry
  have hkind : flow.node.form.isFlow = true := by rw [hform]; rfl
  have hmem := mem_ancestors_of_governor? hgovernor
  have hflow := (mem_walk_of_mem_upwards rfl hp (mem_cons_of_mem _ hmem)).1
  have hdepth (s : Place) (hs : p.scope? = some s) : s.depth < flow.depth :=
    depth_lt_of_governor? hgovernor (Form.isScope_of_isFlow hkind) hs
  have hshared := filter_flowsAround h hp hq hflow hkind (branchOf_ne_header_of_isTry htry hmem)
    (branchOf_ne_header_of_isTry htry hinside) hbranch hdepth fun s hs =>
      hdepth s (hscope.symm.trans hs)
  simp only [Place.verdictByOrigin?, hshared, branchesMatch?_of_isTry htry hmem hinside hbranch,
    hgovernor, Option.any_some, covers_of_mem_ancestors hinside, if_true]
  split <;> split <;> simp_all

end

/-- In an accepted source the body and the `else` of an `if` exclude each other: from an origin in
the one, a place in the other is not reached, however deep both are nested and whatever stands
around the `if`. -/
theorem Module.unreachable_from_other_branch {source : Source} {m : Module}
    (h : Module.ofSource source = .ok m) (tree : Nat) {b o flow s : Place}
    (hb : b ∈ (Place.root tree m).walk) (ho : o ∈ (Place.root tree m).walk)
    (hflow : flow ∈ (Place.root tree m).walk) (hif : flow.isIf = true)
    (hbranch : flow.branchOf b = .body ∧ flow.branchOf o = .orElse ∨
      flow.branchOf b = .orElse ∧ flow.branchOf o = .body) (hscope : flow.scope? = some s)
    (hbscope : b.scope? = some s) (hoscope : o.scope? = some s) {M : Type → Type} [Monad M]
    (check : Place → M Reachability) (owner : Option Place) :
    b.reachability check owner (some o) = pure .unreachable := by
  have hdepth := depth_scope? hscope
  have hbheader : flow.branchOf b ≠ .header := by rcases hbranch with h | h <;> simp [h.1]
  have hoheader : flow.branchOf o ≠ .header := by rcases hbranch with h | h <;> simp [h.2]
  have hne : flow.branchOf b ≠ flow.branchOf o := by rcases hbranch with h | h <;> simp [h.1, h.2]
  have hshared := filter_flowsAround h hb ho hflow (isFlow_of_isIf hif) hbheader hoheader hne
    (by rintro t ht; rwa [← Option.some.inj (hbscope.symm.trans ht)])
    (by rintro t ht; rwa [← Option.some.inj (hoscope.symm.trans ht)])
  have hverdict : b.verdictByOrigin? o = some .unreachable := by
    simp only [Place.verdictByOrigin?, hshared, Place.branchesMatch?, branchKey_eq hbheader,
      branchKey_eq hoheader, beq_eq_false_iff_ne.mpr hne, hif]
    rfl
  simp [Place.reachability, hverdict]

/-- A loop in one branch of an `if` and a manager in a further branch, in a loop of a function. -/
def Source.branchSample : Source :=
  ⟨"def f(a):\n for i in a:\n  if a:\n   while a: x = 1\n  elif i:\n   with a: x\n", []⟩

theorem Module.unreachable_from_other_branch_branchSample :
    ∃ m, Module.ofSource .branchSample = .ok m ∧
      ∃ b ∈ (Place.root 0 m).walk, ∃ o ∈ (Place.root 0 m).walk, ∃ flow ∈ (Place.root 0 m).walk, ∃ s,
        flow.isIf = true ∧ flow.branchOf b = .body ∧ flow.branchOf o = .orElse ∧
        flow.scope? = some s ∧ b.scope? = some s ∧ o.scope? = some s ∧
        b.isBound = true ∧ b.governor?.map Place.label = some "WhileStmt" ∧
        o.governor?.map Place.label = some "WithStmt" ∧
        ∀ context owner, b.reachability (Infer.check context) owner (some o) =
          pure .unreachable := by
  have hfound : (Module.ofSource .branchSample).map (fun m =>
      (Place.root 0 m).walk.any fun b => b.isBound &&
      b.governor?.map Place.label == some "WhileStmt" &&
        (Place.root 0 m).walk.any fun o => o.governor?.map Place.label == some "WithStmt" &&
          (Place.root 0 m).walk.any fun flow => flow.isIf && flow.branchOf b == .body &&
          flow.branchOf o == .orElse &&
            (Place.root 0 m).walk.any fun s => flow.scope?.any s.same && b.scope?.any s.same &&
      o.scope?.any s.same) = .ok true := by decide +kernel
  obtain ⟨m, h, hany⟩ := exists_of_map_eq_ok hfound
  simp only [any_eq_true, Bool.and_eq_true, beq_iff_eq] at hany
  obtain ⟨b, hb, ⟨hbound, hwhile⟩, o, ho, hwith, flow, hflow, ⟨⟨hif, hbody⟩, horElse⟩, s, hs,
    ⟨hfs, hbs⟩, hos⟩ := hany
  have hscope {p : Place} (hp : p ∈ (Place.root 0 m).walk) := scope?_eq_of_same rfl hp hs
  refine ⟨m, h, b, hb, o, ho, flow, hflow, s, hif, hbody, horElse, hscope hflow hfs, hscope hb hbs,
    hscope ho hos, hbound, hwhile, hwith, fun context owner => ?_⟩
  exact unreachable_from_other_branch h 0 hb ho hflow hif (.inl ⟨hbody, horElse⟩) (hscope hflow hfs)
    (hscope hb hbs) (hscope ho hos) (Infer.check context) owner

/-- A place that a `try` governs is seen from an origin in another branch of the `try` as the `else`
sees the handlers, or as what stands around the `try` says: if there is no flow statement in the
scope of the `try`, it may be reached; if there is one, it counts as reached. -/
theorem Module.reachability_across_try {source : Source} {m : Module}
    (h : Module.ofSource source = .ok m) (tree : Nat) {b o flow : Place}
    (hb : b ∈ (Place.root tree m).walk) (ho : o ∈ (Place.root tree m).walk)
    (hgovernor : b.governor? = some flow) (htry : flow.isTry = true) (hscope : o.scope? = b.scope?)
    (hinside : flow ∈ o.ancestors) (hbranch : flow.branchOf b ≠ flow.branchOf o) {M : Type → Type}
    [Monad M] [LawfulMonad M] (check : Place → M Reachability) (owner : Option Place) :
    b.reachability check owner (some o) = pure
      (if flow.branchOf b = .handler ∧ flow.branchOf o = .orElse then .unreachable
       else if flow.flowsAround = [] then .unsure else .reachable) := by
  obtain ⟨body, handlers, orElse, final, hform⟩ := exists_form_of_isTry htry
  have hopen : Place.verdictUpTo check (owner.map Place.key) b flow = pure .unsure := by
    rw [Place.verdictUpTo, Place.verdictOf]
    simp [Place.form, hform, Form.number]
  simp only [Place.reachability, Option.bind_some, hgovernor,
    verdictByOrigin?_of_isTry h hb ho hgovernor htry hscope hinside hbranch]
  split
  · next hexcluded => split <;> simp_all
  · split <;> simp_all

/-- A `try` with two names, on its own and in a branch of an `if`. -/
def Source.trySample (isNested : Bool) : Source :=
  ⟨if isNested then "if c:\n try:\n  x = 1\n except E:\n  x\n" else "try:\n x = 1\nexcept E:\n x\n",
    []⟩

/-- The name that the `try` binds in its body, and the one that a handler of the `try` reads. -/
theorem Module.exists_trySample (isNested : Bool) :
    ∃ m, Module.ofSource (.trySample isNested) = .ok m ∧
      ∃ b ∈ (Place.root 0 m).walk, ∃ o ∈ (Place.root 0 m).walk, ∃ flow,
        b.isBound = true ∧ b.id? = o.id? ∧ b.governor? = some flow ∧ flow.isTry = true ∧
        o.scope? = b.scope? ∧
        flow ∈ o.ancestors ∧ flow.branchOf b = .body ∧ flow.branchOf o = .handler ∧
        (flow.flowsAround = [] ↔ isNested = false) := by
  have hfound : (Module.ofSource (.trySample isNested)).map (fun m =>
      (Place.root 0 m).walk.any fun b => b.isBound && (Place.root 0 m).walk.any fun o =>
        o.id? == b.id? &&
        b.governor?.any fun flow => flow.isTry && flow.branchOf b == .body &&
          flow.branchOf o == .handler && (flow.flowsAround.isEmpty == !isNested) &&
          (Place.root 0 m).walk.any fun s => o.scope?.any s.same && b.scope?.any s.same) =
            .ok true := by
    cases isNested <;> decide +kernel
  obtain ⟨m, h, hany⟩ := exists_of_map_eq_ok hfound
  simp only [any_eq_true, Bool.and_eq_true, beq_iff_eq] at hany
  obtain ⟨b, hb, hbound, o, ho, hid, hany⟩ := hany
  cases hgovernor : b.governor? with
  | none => simp [hgovernor] at hany
  | some flow =>
    simp only [hgovernor, Option.any_some, any_eq_true, Bool.and_eq_true, beq_iff_eq] at hany
    obtain ⟨⟨⟨⟨htry, hbody⟩, hhandler⟩, hempty⟩, s, hs, hos, hbs⟩ := hany
    have hmem := mem_ancestors_of_governor? hgovernor
    have hflow := (mem_walk_of_mem_upwards rfl hb (mem_cons_of_mem _ hmem)).1
    have hscope := (scope?_eq_of_same rfl ho hs hos).trans (scope?_eq_of_same rfl hb hs hbs).symm
    have hinside := mem_ancestors_of_branchOf rfl ho hflow (by simp [hhandler])
    refine ⟨m, h, b, hb, o, ho, flow, hbound, hid.symm, hgovernor, htry, hscope, hinside, hbody,
      hhandler, ?_⟩
    rw [← List.isEmpty_iff, hempty]
    cases isNested <;> simp

theorem Module.reachability_across_try_trySample :
    ∃ m, Module.ofSource (.trySample false) = .ok m ∧
      ∃ b ∈ (Place.root 0 m).walk, ∃ o ∈ (Place.root 0 m).walk, ∃ flow,
        b.isBound = true ∧ b.id? = o.id? ∧ b.governor? = some flow ∧ flow.isTry = true ∧
        o.scope? = b.scope? ∧ flow ∈ o.ancestors ∧ flow.branchOf b ≠ flow.branchOf o ∧
        ∀ context owner, b.reachability (Infer.check context) owner (some o) = pure .unsure := by
  obtain ⟨m, h, b, hb, o, ho, flow, hbound, hid, hgovernor, htry, hscope, hinside, hbody, hhandler,
    hempty⟩ :=
    exists_trySample false
  have hbranch : flow.branchOf b ≠ flow.branchOf o := by simp [hbody, hhandler]
  refine ⟨m, h, b, hb, o, ho, flow, hbound, hid, hgovernor, htry, hscope, hinside, hbranch,
    fun context owner => ?_⟩
  rw [reachability_across_try h 0 hb ho hgovernor htry hscope hinside hbranch,
    if_neg (by simp [hbody]), if_pos (hempty.mpr rfl)]

/-- In a branch of an `if`, what the body of a `try` binds counts as reached from a handler. -/
theorem Module.reachable_across_try_nestedSample :
    ∃ m, Module.ofSource (.trySample true) = .ok m ∧
      ∃ b ∈ (Place.root 0 m).walk, ∃ o ∈ (Place.root 0 m).walk, ∃ flow,
        b.isBound = true ∧ b.id? = o.id? ∧ b.governor? = some flow ∧ flow.isTry = true ∧
        o.scope? = b.scope? ∧ flow ∈ o.ancestors ∧ flow.branchOf b ≠ flow.branchOf o ∧
        ∀ context owner, b.reachability (Infer.check context) owner (some o) = pure .reachable := by
  obtain ⟨m, h, b, hb, o, ho, flow, hbound, hid, hgovernor, htry, hscope, hinside, hbody, hhandler,
    hempty⟩ :=
    exists_trySample true
  have hbranch : flow.branchOf b ≠ flow.branchOf o := by simp [hbody, hhandler]
  have hverdict := verdictByOrigin?_of_isTry h hb ho hgovernor htry hscope hinside hbranch
  rw [if_neg (by simp [hbody]), if_neg (by simp [hempty])] at hverdict
  refine ⟨m, h, b, hb, o, ho, flow, hbound, hid, hgovernor, htry, hscope, hinside, hbranch,
    fun context owner => ?_⟩
  simp [Place.reachability, hverdict]

end NameInference

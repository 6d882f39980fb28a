import NameInference.Proofs.Scope.Header

/-!
# The innermost node at a position

Two children of a node lie apart with all that is below them, decorators included. So of two nodes
that contain one position, one is above the other, and the deepest of all that contain it is below
every other one.
-/

namespace NameInference

open List

/-- A child begins where the node and its decorators may begin. -/
theorem Node.Nested.child_since {n child : Node} (h : n.Nested false) (hchild : child ∈ n.children)
    {q : Position} (hq : n.Since q) : child.Since q := by
  cases h with
  | mk _ _ decorator _ _ within _ =>
    rw [children, Form.parts_eq, mem_append] at hchild
    rcases hchild with hdecorator | hpart
    · exact (decorator child hdecorator).since (hq.2 child hdecorator)
    · exact (within child hpart).1.mono hq.1

namespace Place

variable {p q root : Place} {position : Position}

theorem containsPosition_iff :
    p.containsPosition position = true ↔ p.start ≤ position ∧ position < p.stop := by
  rw [containsPosition, Bool.and_eq_true, Position.upTo_iff, Position.before_iff]

theorem upwards_of_mem_children {child : Place} (h : child ∈ p.children) :
    child.upwards = child :: p.upwards := by
  rw [upwards, (exists_of_mem_children h).2]
  rfl

theorem mem_walk_self (p : Place) : p ∈ p.walk := by
  rw [walk_eq]
  exact mem_cons_self

theorem mem_walk_of_mem_children {child : Place} (hq : q ∈ p.walk) (hchild : child ∈ q.children) :
    child ∈ p.walk := by
  induction p using walk.induct with
  | case1 p ih =>
    rw [walk_eq, mem_cons, mem_flatMap] at hq ⊢
    rcases hq with rfl | ⟨c, hc, hq⟩
    · exact Or.inr ⟨child, hchild, child.mem_walk_self⟩
    · exact Or.inr ⟨c, hc, ih c hc hq⟩

theorem mem_walk_of_mem_walk {r : Place} (hq : q ∈ p.walk) (hr : r ∈ q.walk) : r ∈ p.walk :=
  walk_induction (P := (· ∈ p.walk)) (fun _ ha _ hchild => mem_walk_of_mem_children ha hchild) hq r
    hr

/-- What is below a place is the place itself or a child of something below it. -/
theorem exists_parent_of_mem_walk (h : q ∈ p.walk) : q = p ∨ ∃ a ∈ p.walk, q ∈ a.children :=
  (walk_induction (P := fun q => q ∈ p.walk ∧ (q = p ∨ ∃ a ∈ p.walk, q ∈ a.children))
    (fun a ha _ hchild => ⟨mem_walk_of_mem_children ha.1 hchild, Or.inr ⟨a, ha.1, hchild⟩⟩)
    ⟨p.mem_walk_self, Or.inl rfl⟩ q h).2

/-- What is below a place has the place above it. -/
theorem mem_upwards_of_mem_walk (h : q ∈ p.walk) : p ∈ q.upwards := by
  refine walk_induction (P := fun q => p ∈ q.upwards) (fun a ha child hchild => ?_)
    mem_cons_self q h
  rw [upwards_of_mem_children hchild]
  exact mem_cons_of_mem _ ha

/-- What is above a place below a root is below the root and has the place below it. -/
theorem mem_walk_of_mem_upwards (hroot : root.above = []) (hq : q ∈ root.walk) (h : p ∈ q.upwards) :
    p ∈ root.walk ∧ q ∈ p.walk := by
  refine walk_induction (P := fun q => ∀ p ∈ q.upwards, p ∈ root.walk ∧ q ∈ p.walk)
    (fun a ha child hchild p hp => ?_) ?_ q hq p h
  · obtain ⟨hwalk, -⟩ := ha a mem_cons_self
    rw [upwards_of_mem_children hchild, mem_cons] at hp
    rcases hp with rfl | hp
    · exact ⟨mem_walk_of_mem_children hwalk hchild, p.mem_walk_self⟩
    · exact ⟨(ha p hp).1, mem_walk_of_mem_children (ha p hp).2 hchild⟩
  · have hself : root.upwards = [root] := by rw [upwards, ancestors, hroot, alongWay]
    intro p hp
    rw [hself, mem_singleton] at hp
    subst hp
    exact ⟨p.mem_walk_self, p.mem_walk_self⟩

/-- The places along a way are where it goes on. -/
theorem mem_alongWay {tree : Nat} {above : List (Nat × Node)} :
    p ∈ alongWay tree above ↔ p.tree = tree ∧ ∃ inner i, above = inner ++ (i, p.node) ::
      p.above := by
  induction above with
  | nil => simp [alongWay]
  | cons step rest ih =>
    obtain ⟨i, n⟩ := step
    rw [alongWay, mem_cons, ih]
    constructor
    · rintro (rfl | ⟨htree, inner, j, rfl⟩)
      · exact ⟨rfl, [], i, rfl⟩
      · exact ⟨htree, (i, n) :: inner, j, rfl⟩
    · rintro ⟨rfl, inner, j, hrest⟩
      cases inner with
      | nil =>
        cases hrest
        exact Or.inl rfl
      | cons step inner =>
        cases hrest
        exact Or.inr ⟨rfl, inner, j, rfl⟩

theorem depth_lt_of_mem_ancestors (h : q ∈ p.ancestors) : q.depth < p.depth := by
  obtain ⟨-, inner, i, habove⟩ := mem_alongWay.mp h
  rw [depth, depth, habove, length_append, length_cons]
  omega

/-- The children are nested and stand one behind the other. -/
structure Orderly (p : Place) : Prop where
  nested : ∀ child ∈ p.node.children, child.Nested false
  order : p.node.form.standing.Pairwise Node.Precedes

theorem orderly_of_nested (h : p.node.Nested false) : p.Orderly :=
  ⟨fun _ hchild => (h.child hchild).1, h.order⟩

/-- What is below a node ends with it and begins where it and its decorators may begin. -/
theorem bounds_of_mem_walk (h : p.node.Nested false) (hq : q ∈ p.walk) :
    q.stop ≤ p.stop ∧ ∀ x, p.node.Since x → x ≤ q.start := by
  have hall : q.node.Nested false ∧ q.stop ≤ p.stop ∧ ∀ x, p.node.Since x → q.node.Since x := by
    refine walk_induction (P := fun q => q.node.Nested false ∧ q.stop ≤ p.stop ∧
      ∀ x, p.node.Since x → q.node.Since x)
      (fun a ha child hchild => ?_) ⟨h, le_rfl, fun _ hx => hx⟩ q hq
    obtain ⟨hnested, hstop, hsince⟩ := ha
    have hmem := (exists_of_mem_children hchild).1
    obtain ⟨hchild, hle, -⟩ := hnested.child hmem
    exact ⟨hchild, hle.trans hstop, fun x hx => hnested.child_since hmem (hsince x hx)⟩
  exact ⟨hall.2.1, fun x hx => (hall.2.2 x hx).1⟩

/-- Below two children that stand apart, no two nodes contain one position. -/
theorem not_containsPosition_of_apart {c d : Place} (hc : c.node.Nested false)
    (hd : d.node.Nested false) (hapart : c.node.Apart d.node) (hp : p ∈ c.walk) (hq : q ∈ d.walk)
    (hcp : p.containsPosition position = true) : ¬ q.containsPosition position = true := by
  obtain ⟨hstart, hstop⟩ := containsPosition_iff.mp hcp
  obtain ⟨hpstop, hpstart⟩ := bounds_of_mem_walk hc hp
  obtain ⟨hqstop, hqstart⟩ := bounds_of_mem_walk hd hq
  intro hcq
  obtain ⟨hstart', hstop'⟩ := containsPosition_iff.mp hcq
  rcases hapart with hsince | hsince
  · exact absurd hstop (hpstop.trans ((hqstart _ hsince).trans hstart')).not_gt
  · exact absurd hstop' (hqstop.trans ((hpstart _ hsince).trans hstart)).not_gt

theorem Orderly.apart_of_ne (h : p.Orderly) {i j : Nat} (hi : i < p.node.children.length)
    (hj : j < p.node.children.length) (hne : i ≠ j) :
    p.node.children[i].Apart p.node.children[j] := by
  have hapart := pairwise_iff_getElem.mp (Node.apart_of_order h.order)
  rcases hne.lt_or_gt with hij | hij
  · exact hapart i j hi hj hij
  · exact (hapart j i hj hi hij).symm

/-- Of two nodes that contain one position, one is above the other. -/
theorem Orderly.chain (h : root.Orderly) (hp : p ∈ root.walk) (hq : q ∈ root.walk)
    (hcp : p.containsPosition position = true) (hcq : q.containsPosition position = true) :
    p ∈ q.upwards ∨ q ∈ p.upwards := by
  induction root using walk.induct with
  | case1 root ih =>
    have hp' := hp
    have hq' := hq
    rw [walk_eq, mem_cons, mem_flatMap] at hp' hq'
    rcases hp' with rfl | ⟨c, hc, hp'⟩
    · exact Or.inl (mem_upwards_of_mem_walk hq)
    rcases hq' with rfl | ⟨d, hd, hq'⟩
    · exact Or.inr (mem_upwards_of_mem_walk hp)
    have hnested {c : Place} (hc : c ∈ root.children) : c.node.Nested false :=
      h.nested c.node (exists_of_mem_children hc).1
    have hc' := hc
    have hd' := hd
    obtain ⟨i, hi, rfl⟩ := mem_mapIdx.mp hc'
    obtain ⟨j, hj, rfl⟩ := mem_mapIdx.mp hd'
    by_cases hij : i = j
    · subst hij
      exact ih _ hc (orderly_of_nested (hnested hc)) hp' hq'
    · exact absurd hcq
        (not_containsPosition_of_apart (hnested hc) (hnested hd) (h.apart_of_ne hi hj hij) hp'
          hq' hcp)

/-- The places below a root that contain a position. -/
def around (root : Place) (position : Position) : List Place :=
  (root.children.flatMap walk).filter (·.containsPosition position)

theorem mem_around : p ∈ root.around position ↔
    p ∈ root.children.flatMap walk ∧ p.containsPosition position = true := by
  rw [around, mem_filter]

theorem mem_walk_of_mem_around (h : p ∈ root.around position) : p ∈ root.walk := by
  rw [walk_eq]
  exact mem_cons_of_mem _ (mem_around.mp h).1

theorem deepestAt_eq (root : Place) (position : Position) :
    root.deepestAt position = (root.around position).foldl deeper none := by
  have hdrop : root.walk.drop 1 = root.children.flatMap walk := by rw [walk_eq, drop_one, tail_cons]
  rw [deepestAt, hdrop, around, foldl_filter]

/-- The best one stays best, or a deeper one takes its place. -/
theorem exists_foldl_deeper (places : List Place) (b : Place) :
    ∃ n, places.foldl deeper (some b) = some n ∧ n ∈ b :: places ∧ ∀ p ∈ b :: places, p.depth ≤
      n.depth := by
  induction places generalizing b with
  | nil => exact ⟨b, rfl, by simp, by simp⟩
  | cons q places ih =>
    rw [foldl_cons, deeper]
    split
    · next hlt =>
      obtain ⟨n, hn, hmem, hbest⟩ := ih q
      refine ⟨n, hn, mem_cons_of_mem _ hmem, forall_mem_cons.mpr ⟨?_, hbest⟩⟩
      exact hlt.le.trans (hbest q mem_cons_self)
    · next hle =>
      obtain ⟨n, hn, hmem, hbest⟩ := ih b
      obtain ⟨hb, hbest⟩ := forall_mem_cons.mp hbest
      refine ⟨n, hn, ?_, forall_mem_cons.mpr ⟨hb, forall_mem_cons.mpr ⟨?_, hbest⟩⟩⟩
      · rw [mem_cons] at hmem ⊢
        exact hmem.imp_right (mem_cons_of_mem _)
      · omega

/-- There is a deepest place unless no place contains the position. -/
theorem deepestAt_cases (root : Place) (position : Position) :
    root.deepestAt position = none ∧ root.around position = [] ∨
      ∃ n, root.deepestAt position = some n ∧ n ∈ root.around position ∧
        ∀ p ∈ root.around position, p.depth ≤ n.depth := by
  rw [deepestAt_eq]
  cases root.around position with
  | nil => exact Or.inl ⟨rfl, rfl⟩
  | cons p places => exact Or.inr (exists_foldl_deeper places p)

/-- The deepest place is below all that contain the position. -/
theorem Orderly.mem_upwards (h : root.Orderly) (hp : p ∈ root.around position)
    (hq : q ∈ root.around position) (hdepth : p.depth ≤ q.depth) : p ∈ q.upwards := by
  rcases h.chain (mem_walk_of_mem_around hp) (mem_walk_of_mem_around hq) (mem_around.mp hp).2
    (mem_around.mp hq).2 with habove | hbelow
  · exact habove
  · rw [upwards, mem_cons] at hbelow ⊢
    refine hbelow.imp Eq.symm fun hproper => ?_
    exact absurd (depth_lt_of_mem_ancestors hproper) hdepth.not_gt

/-- Nothing else below the deepest place contains the position. -/
theorem eq_of_mem_walk (hp : p ∈ root.around position)
    (hdeepest : ∀ q ∈ root.around position, q.depth ≤ p.depth) (hq : q ∈ p.walk)
    (hcq : q.containsPosition position = true) : q = p := by
  have hmem : q ∈ root.around position := by
    refine mem_around.mpr ⟨?_, hcq⟩
    obtain ⟨child, hchild, hp⟩ := mem_flatMap.mp (mem_around.mp hp).1
    exact mem_flatMap.mpr ⟨child, hchild, mem_walk_of_mem_walk hp hq⟩
  have habove := mem_upwards_of_mem_walk hq
  rw [upwards, mem_cons] at habove
  rcases habove with rfl | hproper
  · rfl
  · exact absurd (depth_lt_of_mem_ancestors hproper) (hdeepest q hmem).not_gt

end Place

theorem Module.orderly_of_ofSource {source : Source} {m : Module}
    (h : Module.ofSource source = .ok m) (tree : Nat) :
    (Place.root tree m).Orderly := by
  obtain ⟨-, hinner, horder⟩ := children_of_ofSource h
  obtain ⟨body, hroot, -⟩ := fits_of_ofSource h
  have hstanding : m.root.form.standing = m.root.children := by
    rw [Node.children, hroot]
    rfl
  exact ⟨fun n hn => (hinner n hn).1, hstanding ▸ horder⟩

/-- In an accepted source the nodes below the module that contain a position are all above or below
each other. The node at the position is the lowest of them, if there is any. -/
theorem Module.deepestAt_of_ofSource {source : Source} {m : Module}
    (h : Module.ofSource source = .ok m) (tree : Nat) (position : Position) :
    (∀ p ∈ (Place.root tree m).around position, ∀ q ∈ (Place.root tree m).around position,
      p ∈ q.upwards ∨ q ∈ p.upwards) ∧
    ((Place.root tree m).deepestAt position = none ↔ (Place.root tree m).around position = []) ∧
    ∀ n, (Place.root tree m).deepestAt position = some n →
      n ∈ (Place.root tree m).around position ∧
      (∀ p ∈ (Place.root tree m).around position, p ∈ n.upwards) ∧
      ∀ p ∈ n.walk, p.containsPosition position = true → p = n := by
  have horderly := orderly_of_ofSource h tree
  refine ⟨fun p hp q hq => ?_, ?_⟩
  · exact horderly.chain (Place.mem_walk_of_mem_around hp) (Place.mem_walk_of_mem_around hq)
      (Place.mem_around.mp hp).2 (Place.mem_around.mp hq).2
  rcases (Place.root tree m).deepestAt_cases position with
    ⟨hnone, hempty⟩ | ⟨found, hfound, hmem, hdeepest⟩
  · refine ⟨iff_of_true hnone hempty, fun n hn => ?_⟩
    cases hnone.symm.trans hn
  · refine ⟨iff_of_false ?_ (ne_nil_of_mem hmem), fun n hn => ?_⟩
    · simp [hfound]
    · cases hfound.symm.trans hn
      exact ⟨hmem, fun p hp => horderly.mem_upwards hp hmem (hdeepest p hp), fun p hp hcp =>
        Place.eq_of_mem_walk hmem hdeepest hp hcp⟩

/-- A method whose decorator is called with a bracketed name. -/
def Source.innermostSample : Source := ⟨"class A:\n @f((x))\n def g(y): pass\n", []⟩

theorem Module.deepestAt_of_ofSource_innermostSample :
    ∃ m, Module.ofSource .innermostSample = .ok m ∧
      ((Place.root 0 m).around ⟨2, 6⟩).map Place.label = ["ClassDef", "Call", "Name"] ∧
      ∃ n, (Place.root 0 m).deepestAt ⟨2, 6⟩ = some n ∧ n.label = "Name" ∧
        n ∈ (Place.root 0 m).around ⟨2, 6⟩ ∧ (∀ p ∈ (Place.root 0 m).around ⟨2, 6⟩, p ∈ n.upwards) ∧
        ∀ p ∈ n.walk, p.containsPosition ⟨2, 6⟩ = true → p = n := by
  have hlabels : (Module.ofSource .innermostSample).map (fun m =>
      (((Place.root 0 m).around ⟨2, 6⟩).map Place.label,
        ((Place.root 0 m).deepestAt ⟨2, 6⟩).map Place.label)) =
      .ok (["ClassDef", "Call", "Name"], some "Name") := by decide +kernel
  obtain ⟨m, h, hm⟩ := exists_of_map_eq_ok hlabels
  obtain ⟨haround, hdeepest⟩ := Prod.mk.inj hm
  obtain ⟨n, hn, hlabel⟩ := Option.map_eq_some_iff.mp hdeepest
  exact ⟨m, h, haround, n, hn, hlabel, (deepestAt_of_ofSource h 0 ⟨2, 6⟩).2.2 n hn⟩

end NameInference

import NameInference.Proofs.Span.Innermost

/-!
# Children in source order

The children of a node are listed in the order in which they stand, but for the keywords of a call
or a class: their values are listed behind all other arguments, also where a starred argument
follows them.
-/

namespace NameInference

namespace Form

/-- The arguments of a call, or the bases of a class, that are no keywords. -/
def positional : Form Node → List Node
  | classDef _ _ _ bases _ _ => bases
  | call _ args _ => args
  | _ => []

/-- The values of the keywords of a call or a class. -/
def keywordValues : Form Node → List Node
  | classDef _ _ _ _ keywords _ => keywords.map (·.value)
  | call _ _ keywords => keywords.map (·.value)
  | _ => []

theorem sublist_parts (form : Form Node) :
    (form.positional ++ form.keywordValues).Sublist form.parts := by
  cases form with
  | classDef _ decorators ident bases keywords body =>
    have hheader := List.sublist_append_right (decorators ++ [ident])
      (bases ++ keywords.map (·.value))
    simpa [positional, keywordValues, parts] using hheader.trans (List.sublist_append_left _ body)
  | call callee args keywords => exact List.sublist_cons_self callee _
  | _ => exact List.nil_sublist _

/-- Where the keywords stand behind the other arguments, the parts are listed as they stand. -/
theorem standing_eq_parts {form : Form Node}
    (h : ∀ a ∈ form.positional, ∀ v ∈ form.keywordValues, a.start < v.start) :
    form.standing = form.parts := by
  have hmixed : Node.mixed form.positional form.keywordValues = form.positional ++
    form.keywordValues :=
    List.merge_of_le fun a v ha hv => by simpa using (h a ha v hv).le
  cases form with
  | classDef =>
    simp only [positional, keywordValues] at hmixed
    simp [standing, parts, hmixed]
  | call => exact congrArg _ hmixed
  | _ => rfl

end Form

/-- The children of a node are in source order exactly if no keyword stands before an argument that
is none. -/
theorem Module.children_inOrder_iff {source : Source} {m : Module}
    (h : Module.ofSource source = .ok m) (tree : Nat) :
    ∀ p ∈ (Place.root tree m).walk, (p.node.children.Pairwise fun a b => a.start < b.start) ↔
      ∀ a ∈ p.node.form.positional, ∀ v ∈ p.node.form.keywordValues, a.start < v.start := by
  intro p hp
  have horderly : p.Orderly := Place.walk_induction (P := Place.Orderly)
    (fun p hp child hchild =>
      Place.orderly_of_nested (hp.nested _ (Place.exists_of_mem_children hchild).1))
    (orderly_of_ofSource h tree) p hp
  constructor
  · exact fun horder => (List.pairwise_append.mp (horder.sublist p.node.form.sublist_parts)).2.2
  · intro hbehind
    have horder := horderly.order
    rw [Form.standing_eq_parts hbehind] at horder
    exact horder.imp_of_mem fun ha _ hprecedes =>
      (horderly.nested _ ha).start_lt_stop.trans_le hprecedes.1

/-- A call with a starred argument behind a keyword. -/
def Source.keywordFirstSample : Source := ⟨"f(k=1, *a)\n", []⟩

theorem Module.children_inOrder_iff_keywordFirstSample :
    ∃ m, Module.ofSource .keywordFirstSample = .ok m ∧ (Place.root 0 m).walk.length = 7 ∧
      ∀ p ∈ (Place.root 0 m).walk, (p.node.children.Pairwise fun a b => a.start < b.start) ↔
        ∀ a ∈ p.node.form.positional, ∀ v ∈ p.node.form.keywordValues, a.start < v.start := by
  have hlength : (Module.ofSource .keywordFirstSample).map (fun m => (Place.root 0 m).walk.length) =
      .ok 7 := by
    decide +kernel
  obtain ⟨m, h, hm⟩ := exists_of_map_eq_ok hlength
  exact ⟨m, h, hm, children_inOrder_iff h 0⟩

theorem Module.children_outOfOrder_keywordFirstSample :
    ∃ m, Module.ofSource .keywordFirstSample = .ok m ∧ ∃ p ∈ (Place.root 0 m).walk,
      ¬ p.node.children.Pairwise fun a b => a.start < b.start := by
  have hcall : (Module.ofSource .keywordFirstSample).map
      (fun m => (Place.root 0 m).walk.any fun p =>
      decide (¬ p.node.children.Pairwise fun a b => a.start < b.start)) = .ok true := by
        decide +kernel
  obtain ⟨m, h, hm⟩ := exists_of_map_eq_ok hcall
  obtain ⟨p, hp, hcall⟩ := List.any_eq_true.mp hm
  exact ⟨m, h, p, hp, of_decide_eq_true hcall⟩

end NameInference

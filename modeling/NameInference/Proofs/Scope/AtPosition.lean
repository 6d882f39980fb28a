import NameInference.Inference.Query
import NameInference.Proofs.Scope.Index
import NameInference.Proofs.Span.Innermost

/-!
# The scope at a position

A position belongs to the innermost definition or lambda whose body holds it. For a name that is
read, this is the scope that the tree gives: both pass by the definitions and lambdas in whose
headers the name stands, one by comparing positions, the other from part to part.
-/

namespace NameInference

open List NameInference.Module Place

namespace Place

variable {p q a root : Place}

theorem form_eq_name {id : Text} (h : p.id? = some id) : p.node.form = .name id := by
  unfold id? Node.id? at h
  split at h
  · next hform => rw [hform, Option.some.inj h]
  · cases h

/-- The first scope along the way that is no comprehension and in whose header the way does not
lead. -/
def beyondAlong (tree : Nat) : List (Nat × Node) → Option Place
  | [] => none
  | (i, n) :: rest =>
    if n.form.isScope && !n.form.isHeaderPart i && !isComprehension ⟨tree, n, rest⟩ then
      some ⟨tree, n, rest⟩
    else beyondAlong tree rest

/-- The scope around holds the rest of the way, and the way does not lead through its header. -/
theorem exists_of_enclosingAlong {tree : Nat} {above : List (Nat × Node)}
    (h : enclosingAlong tree above = some a) :
    a.tree = tree ∧ ∃ inner i, above = inner ++ (i, a.node) :: a.above ∧
      a.node.form.isHeaderPart i = false := by
  induction above with
  | nil => cases h
  | cons step rest ih =>
    obtain ⟨i, n⟩ := step
    rw [enclosingAlong] at h
    split at h
    · next hfound =>
      cases h
      exact ⟨rfl, [], i, rfl, by simpa using (Bool.and_eq_true_iff.mp hfound).2⟩
    · obtain ⟨htree, inner, j, rfl, hbody⟩ := ih h
      exact ⟨htree, (i, n) :: inner, j, rfl, hbody⟩

theorem mem_ancestors_of_enclosing? (h : p.enclosing? = some a) : a ∈ p.ancestors := by
  obtain ⟨htree, inner, i, habove, -⟩ := exists_of_enclosingAlong h
  exact mem_alongWay.mpr ⟨htree, inner, i, habove⟩

/-- Comprehensions are passed on the way. -/
theorem beyondAlong_eq (tree : Nat) (above : List (Nat × Node)) : beyondAlong tree above =
    (enclosingAlong tree above).bind fun a => if a.isComprehension then beyondAlong tree a.above
      else some a := by
  induction above with
  | nil => rfl
  | cons step rest ih =>
    obtain ⟨i, n⟩ := step
    rw [beyondAlong, enclosingAlong]
    cases hfound : n.form.isScope && !n.form.isHeaderPart i with
    | false => simpa using ih
    | true => cases hcomprehension : isComprehension ⟨tree, n, rest⟩ <;> simp [hcomprehension]

/-- A child covers what the way leads to through it. -/
theorem covers_enter {inner : List Nat} {i k : Nat} {n : Node} (htree : a.tree = p.tree)
    (hpath : p.path = inner ++ i :: a.path) : (a.enter k n).covers p = decide (k = i) := by
  have hway : (a.enter k n).path = k :: a.path := rfl
  have htree' : (a.enter k n).tree = p.tree := htree
  rw [covers, hway, htree', hpath, BEq.rfl, Bool.true_and, Bool.eq_iff_iff, isSuffixOf_iff_suffix,
    decide_eq_true_iff]
  constructor
  · intro hsuffix
    have hshort := suffix_of_suffix_length_le hsuffix (suffix_append inner (i :: a.path)) (by simp)
    exact (List.cons.inj (hshort.eq_of_length (by simp))).1
  · rintro rfl
    exact suffix_append inner _

theorem scopeAt_of_deepestAt {position : Position} (h : root.deepestAt position = some p) :
    root.scopeAt position = (p.upwards.find? (p.holdsAt position)).getD root := by
  rw [scopeAt, h]

/-- Where a place stands to the colon of a definition tells whether it is in the body. -/
theorem Sited.upTo_start (h : p.Sited) {x : Nat × Node} (hx : x ∈ p.above) {colon : Position}
    (hcolon : x.2.form.colon? = some colon) :
    colon.upTo p.start = !decide (x.1 < x.2.form.header.length) := by
  rw [Bool.eq_iff_iff, Position.upTo_iff, Bool.not_eq_true', decide_eq_false_iff_not]
  constructor
  · intro hle hheader
    exact absurd (h.nested.start_lt_stop.trans_le (h.before x hx colon hcolon hheader)) hle.not_gt
  · intro hbody
    exact (h.behind x hx colon hcolon (Nat.le_of_not_lt hbody)).1.le

/-- The scope around a place is none in whose header the place stands. -/
theorem not_same_of_isHeaderPart {inner : List (Nat × Node)} {i : Nat}
    (habove : p.above = inner ++ (i, a.node) :: a.above)
    (hheader : a.node.form.isHeaderPart i = true) : (p.enclosing?.any (·.same a)) = false := by
  cases hscope : p.enclosing? with
  | none => rfl
  | some s =>
    rw [Option.any_some, same, beq_eq_false_iff_ne]
    intro hkey
    obtain ⟨-, inner', j, habove', hbody⟩ := exists_of_enclosingAlong hscope
    have hlength : s.above.length = a.above.length := by
      simpa [key, path] using congrArg (·.path.length) hkey
    obtain ⟨-, hstep⟩ := append_inj' (habove.symm.trans habove') (by simp [hlength])
    obtain ⟨hstep, -⟩ := List.cons.inj hstep
    obtain ⟨rfl, hnode⟩ := Prod.mk.inj hstep
    rw [hnode, hbody] at hheader
    cases hheader

/-- By position or by part, a definition or lambda holds a place in its body. -/
theorem Sited.holdsAt_eq (h : p.Sited) (hname : p.isParamName = false) {inner : List (Nat × Node)}
    {i : Nat} (habove : p.above = inner ++ (i, a.node) :: a.above) (htree : a.tree = p.tree)
    (hi : i < a.node.children.length) (hmodule : ∀ body, a.node.form ≠ .module body) :
    p.holdsAt p.start a = (a.node.form.isScope && !a.node.form.isHeaderPart i &&
      !a.isComprehension) := by
  have hmem : (i, a.node) ∈ p.above := by simp [habove]
  cases hform : a.node.form with
  | functionDef | classDef =>
    have hcolon (colon : Position) (hfound : a.node.form.colon? = some colon) :=
      h.upTo_start hmem hfound
    rw [hform] at hcolon
    simp [holdsAt, form, hform, Form.number, isComprehension, Form.isScope, Form.isHeaderPart,
      hcolon _ rfl]
  | lambda params body =>
    have hlength : i < params.length + 1 := by simpa [Node.children, hform, Form.parts] using hi
    have hpath : p.path = inner.map (·.1) ++ i :: a.path := by simp [path, habove]
    have hsame : i < params.length → (p.scope?.any (·.same a)) = false := by
      intro hheader
      rw [h.scope?_eq_enclosing? hname]
      exact not_same_of_isHeaderPart habove (by simpa [hform, Form.isHeaderPart] using hheader)
    simp only [holdsAt, form, hform, Form.number, isComprehension, Form.isScope, Form.isHeaderPart]
    by_cases hheader : i < params.length
    · have hne : params.length ≠ i := by omega
      simp [hsame hheader, hheader, covers_enter htree hpath, hne]
    · have heq : params.length = i := by omega
      simp [covers_enter htree hpath, heq]
  | module body => exact absurd hform (hmodule body)
  | _ => simp [holdsAt, form, hform, Form.number, isComprehension, Form.isScope]

/-- Only the name of a parameter is taken for a parameter without being one. -/
theorem Sited.fits_bound_of_isParamName (h : p.Sited) {child : Place} (hchild : child ∈ p.children)
    (hname : child.isParamName = true) :
    (∃ kind name hint default, child.node.form = .param kind name hint default) ∨
      child.node.Fits .bound := by
  obtain ⟨i, n, hn, -, rfl⟩ := exists_enter_of_mem_children hchild
  obtain ⟨kind, name, hint, default, hform | ⟨rfl, hform⟩⟩ := exists_param_of_isParamName hname
  · exact Or.inl ⟨kind, name, hint, default, hform⟩
  · obtain ⟨role, hfits⟩ := h.fits
    obtain rfl : n = name := by simpa [Node.children, hform, Form.parts] using hn.symm
    exact Or.inr (hfits.part (.bound, n) (by simp [hform, Form.roles]))

theorem Sited.form_ne_module (h : p.Sited) (body : List Node) : p.node.form ≠ .module body := by
  obtain ⟨role, hfits⟩ := h.fits
  intro hform
  have hsuits := hfits.suits
  rw [hform] at hsuits
  generalize p.node.usage = usage at hsuits
  cases hsuits with
  | statement kind _ | expression kind _ | target kind _ => cases kind

theorem number_lt_of_mem_walk (hroot : root.above = []) (hp : p ∈ root.walk) :
    ∀ x ∈ p.above, x.1 < x.2.children.length := by
  refine walk_induction (P := fun p => ∀ x ∈ p.above, x.1 < x.2.children.length)
    (fun a ha child hchild => ?_) (by simp [hroot]) p hp
  obtain ⟨i, n, hn, -, rfl⟩ := exists_enter_of_mem_children hchild
  exact List.forall_mem_cons.mpr ⟨(List.getElem?_eq_some_iff.mp hn).1, ha⟩

end Place

section

variable {source : Source} {m : Module} (h : Module.ofSource source = .ok m) {tree : Nat}
  {p a : Place}

include h

theorem Module.sited_of_mem_walk (hp : p ∈ (Place.root tree m).walk) :
    p = Place.root tree m ∨ p.Sited := by
  rw [walk_eq, mem_cons, mem_flatMap] at hp
  refine hp.imp_right fun ⟨child, hchild, hp⟩ => ?_
  exact walk_induction (fun a ha c hc => ha.child hc) (sited_of_ofSource h tree child hchild).1 p hp

/-- Only parameters and the names of parameters are taken for parameters. -/
theorem Module.isParamName_eq_false (hp : p ∈ (Place.root tree m).walk)
    (hparam : ∀ kind name hint default, p.node.form ≠ .param kind name hint default)
    (hbound : ¬ p.node.Fits .bound) : p.isParamName = false := by
  by_contra hname
  rw [Bool.not_eq_false] at hname
  obtain ⟨body, hform, -⟩ := fits_of_ofSource h
  rcases exists_parent_of_mem_walk hp with rfl | ⟨a, ha, hchild⟩
  · simp [Place.isParamName, Place.root, hform] at hname
  · rcases sited_of_mem_walk h ha with rfl | hsited
    · obtain ⟨i, n, -, -, rfl⟩ := exists_enter_of_mem_children hchild
      obtain ⟨kind, name, hint, default, hfound | ⟨-, hfound⟩⟩ := exists_param_of_isParamName hname
      · exact hparam kind name hint default hfound
      · cases hform.symm.trans hfound
    · rcases hsited.fits_bound_of_isParamName hchild hname with ⟨kind, name, hint, default,
        hfound⟩ | hfits
      · exact hparam kind name hint default hfound
      · exact hbound hfits

/-- The first scope around that is no comprehension is found from part to part. -/
theorem Module.scopeBeyond?_eq (hp : p ∈ (Place.root tree m).walk) (hsited : p.Sited)
    (hname : p.isParamName = false) :
    p.scopeBeyond? Place.isComprehension = Place.beyondAlong p.tree p.above := by
  obtain ⟨body, hform, -⟩ := fits_of_ofSource h
  fun_induction Place.scopeBeyond? Place.isComprehension p with
  | case1 p hnone =>
    rw [hsited.scope?_eq_enclosing? hname] at hnone
    rw [beyondAlong_eq, ← Place.enclosing?, hnone]
    rfl
  | case2 p s hs hskip ih =>
    rw [hsited.scope?_eq_enclosing? hname] at hs
    have habove := mem_ancestors_of_enclosing? hs
    have hwalk := (mem_walk_of_mem_upwards rfl hp (mem_cons_of_mem _ habove)).1
    have hcomprehension : ∃ kind element value clauses, s.node.form =
        .comprehension kind element value clauses := by
      unfold Place.isComprehension at hskip
      split at hskip
      · next hform => exact ⟨_, _, _, _, hform⟩
      · cases hskip
    obtain ⟨kind, element, value, clauses, hfound⟩ := hcomprehension
    have hsited' : s.Sited := by
      refine (sited_of_mem_walk h hwalk).resolve_left ?_
      rintro rfl
      cases hform.symm.trans hfound
    have hname' : s.isParamName = false := by
      refine isParamName_eq_false h hwalk (by simp [hfound]) fun hfits => ?_
      obtain ⟨id, hid, -⟩ := hfits.exists_name
      cases hfound.symm.trans hid
    obtain ⟨htree, -⟩ := mem_alongWay.mp habove
    rw [ih hwalk hsited' hname', beyondAlong_eq p.tree, ← Place.enclosing?, hs, Option.bind_some,
      if_pos hskip, htree]
  | case3 p s hs hskip =>
    rw [hsited.scope?_eq_enclosing? hname] at hs
    rw [beyondAlong_eq, ← Place.enclosing?, hs, Option.bind_some, if_neg hskip]

/-- By position the same scope is found. -/
theorem Module.beyondAlong_eq_find? (hp : p ∈ (Place.root tree m).walk) (hsited : p.Sited)
    (hname : p.isParamName = false) {inner above : List (Nat × Node)}
    (habove : p.above = inner ++ above) (hroot : Place.root tree m ∈ Place.alongWay p.tree above) :
    Place.beyondAlong p.tree above =
      some (((Place.alongWay p.tree above).find? (p.holdsAt p.start)).getD
        (Place.root tree m)) := by
  obtain ⟨body, hform, -⟩ := fits_of_ofSource h
  induction above generalizing inner with
  | nil => cases hroot
  | cons step rest ih =>
    obtain ⟨i, n⟩ := step
    have hmem : (⟨p.tree, n, rest⟩ : Place) ∈ p.ancestors :=
      mem_alongWay.mpr ⟨rfl, inner, i, habove⟩
    have hwalk := (mem_walk_of_mem_upwards rfl hp (mem_cons_of_mem _ hmem)).1
    rw [Place.alongWay, mem_cons] at hroot
    rw [Place.alongWay, find?_cons, Place.beyondAlong]
    rcases sited_of_mem_walk h hwalk with hself | hsited'
    · -- The module is the last on the way, and holds what no body holds.
      obtain ⟨-, rfl, rfl⟩ := Place.mk.inj hself
      have hpassed : p.holdsAt p.start ⟨p.tree, m.root, []⟩ = false := by
        simp [Place.holdsAt, Place.form, hform, Form.number]
      rw [hpassed, ← hself, if_pos]
      · rfl
      · simp [hform, Form.isScope, Form.isHeaderPart, Form.header, Place.isComprehension]
    · have hi := number_lt_of_mem_walk rfl hp (i, n) (by simp [habove])
      have hholds : p.holdsAt p.start ⟨p.tree, n, rest⟩ = _ :=
        hsited.holdsAt_eq hname habove rfl hi hsited'.form_ne_module
      rw [hholds]
      split
      · next hfound => rw [hfound]; rfl
      · next hpassed =>
        rw [Bool.not_eq_true] at hpassed
        rw [hpassed]
        have habove' : p.above = (inner ++ [(i, n)]) ++ rest := by simp [habove]
        refine ih habove' (hroot.resolve_left fun hself => ?_)
        obtain ⟨-, rfl, -⟩ := Place.mk.inj hself
        exact hsited'.form_ne_module body hform

end

section

variable {source : Source} {m : Module} (h : Module.ofSource source = .ok m) {tree : Nat}
  {p : Place} {id : Text} (hp : p ∈ (Place.root tree m).walk) (hname : p.node.form = .name id)

include h hname

theorem Module.ne_root_of_name (tree : Nat) : p ≠ Place.root tree m := by
  rintro rfl
  obtain ⟨body, hform, -⟩ := fits_of_ofSource h
  cases hform.symm.trans hname

include hp

/-- The node at the beginning of a name is the name. -/
theorem Module.deepestAt_start : (Place.root tree m).deepestAt p.start = some p := by
  have hproper := ne_root_of_name h hname tree
  have hsited := (sited_of_mem_walk h hp).resolve_left hproper
  have hmem : p ∈ (Place.root tree m).around p.start := by
    refine mem_around.mpr ⟨?_, containsPosition_iff.mpr ⟨le_rfl, hsited.nested.start_lt_stop⟩⟩
    rw [walk_eq, mem_cons] at hp
    exact hp.resolve_left hproper
  rcases (Place.root tree m).deepestAt_cases p.start with ⟨-, hempty⟩ | ⟨n, hn, haround, hdeepest⟩
  · rw [hempty] at hmem
    cases hmem
  · have habove := (orderly_of_ofSource h tree).mem_upwards hmem haround (hdeepest p hmem)
    have hbelow := (mem_walk_of_mem_upwards rfl (mem_walk_of_mem_around haround) habove).2
    have hleaf : p.walk = [p] := by
      simp [walk_eq p, Place.children, Node.children, hname, Form.parts]
    rw [hleaf, mem_singleton] at hbelow
    rw [hn, hbelow]

/-- The scope at the position of a name that is no parameter is the first scope around it that is no
comprehension. -/
theorem Module.scopeBeyond?_eq_scopeAt (hparam : p.isParamName = false) :
    p.scopeBeyond? Place.isComprehension = some ((Place.root tree m).scopeAt p.start) := by
  have hproper := ne_root_of_name h hname tree
  have hsited := (sited_of_mem_walk h hp).resolve_left hproper
  have hroot : Place.root tree m ∈ p.ancestors :=
    (mem_cons.mp (mem_upwards_of_mem_walk hp)).resolve_left hproper.symm
  have hself : p.holdsAt p.start p = false := by
    simp [Place.holdsAt, Place.form, hname, Form.number]
  rw [scopeBeyond?_eq h hp hsited hparam,
    beyondAlong_eq_find? h hp hsited hparam (nil_append _).symm hroot,
    scopeAt_of_deepestAt (deepestAt_start h hp hname), Place.upwards, find?_cons, hself]
  rfl

end

/-- Where a name is read, the scope at its position is the first scope around it that is no
comprehension. -/
theorem Module.scopeAt_start_of_ofSource {source : Source} {m : Module}
    (h : Module.ofSource source = .ok m) (tree : Nat) {p : Place}
    (hp : p ∈ (Place.root tree m).walk) {id : Text} (hname : p.node.form = .name id)
    (hload : p.node.usage = .load) :
    p.scopesAround.find? (fun s => !s.isComprehension) =
      some ((Place.root tree m).scopeAt p.start) := by
  have hparam : p.isParamName = false := by
    refine isParamName_eq_false h hp (by simp [hname]) fun hfits => ?_
    obtain ⟨_, -, hstore⟩ := hfits.exists_name
    cases hload.symm.trans hstore
  rw [find?_scopesAround, scopeBeyond?_eq_scopeAt h hp hname hparam]

/-- A comprehension in the body of a lambda that is the default of a parameter. -/
def Source.positionSample : Source :=
  ⟨"def f(a=lambda b=c: [d for x in e]):\n @g\n class K(h): i\n", []⟩

theorem Module.scopeAt_start_of_ofSource_positionSample :
    ∃ m, Module.ofSource .positionSample = .ok m ∧
      ∃ p ∈ (Place.root 0 m).walk, p.node.form = .name "d" ∧ p.node.usage = .load ∧
        ((Place.root 0 m).scopeAt p.start).label = "LambdaExpr" ∧
        p.scopesAround.find? (fun s => !s.isComprehension) =
          some ((Place.root 0 m).scopeAt p.start) := by
  have hscopes : (Module.ofSource .positionSample).map (fun m =>
      ((Place.root 0 m).walk.filter fun p => p.id? == some ("d" : Text)).map fun p =>
        (p.node.usage, ((Place.root 0 m).scopeAt p.start).label)) =
          .ok [(.load, "LambdaExpr")] := by decide +kernel
  obtain ⟨m, h, hscopes⟩ := exists_of_map_eq_ok hscopes
  obtain ⟨p, hp, hfound⟩ := mem_map.mp (hscopes.symm ▸ mem_singleton_self _)
  obtain ⟨hload, hlabel⟩ := Prod.mk.inj hfound
  obtain ⟨hwalk, hid⟩ := mem_filter.mp hp
  have hname := form_eq_name (beq_iff_eq.mp hid)
  exact ⟨m, h, p, hwalk, hname, hload, hlabel, scopeAt_start_of_ofSource h 0 hwalk hname hload⟩

end NameInference

import NameInference.Scope.Enclosing
import NameInference.Proofs.Scope.Places

/-!
# Headers by position and by part

Whether a place belongs to the header of a definition around it is decided by where it begins. In
the tree of an accepted source this is the same as asking which part of the definition it is below:
all that is below the parts of the header ends before the colon, and all that is below the body,
decorators included, begins behind it.
-/

namespace NameInference

open List

namespace Form

variable {ν : Type}

/-- Whether the part with number `i` stands in front of the body of a definition or a lambda, or is
the first iterable of a comprehension. -/
def isHeaderPart (i : Nat) : Form ν → Bool
  | lambda params _ => i < params.length
  | comprehension _ _ value clauses => !clauses.isEmpty && i == 1 + value.toList.length + 1
  | form => i < form.header.length

end Form

/-- A child ends with its parent and begins behind what the parent and its decorators begin behind.
-/
theorem Node.Nested.child {n child : Node} (h : n.Nested false) (hchild : child ∈ n.children) :
    child.Nested false ∧ child.stop ≤ n.stop ∧ ∀ q, n.Behind q → child.Behind q := by
  cases h with
  | mk lt _ decorator before part within _ =>
    rw [children, Form.parts_eq, mem_append] at hchild
    rcases hchild with hdecorator | hpart
    · have hplain := decorator child hdecorator
      refine ⟨hplain.loosen false, (before child hdecorator).trans lt.le,
        fun q hq => ⟨hq.2 child hdecorator, ?_⟩⟩
      simp [hplain.decorators_eq_nil]
    · obtain ⟨hsince, hstop⟩ := within child hpart
      exact ⟨part child hpart, hstop, fun q hq => hsince.behind hq.1⟩

/-- Only statements have a colon. -/
theorem Role.Suits.cleft {role : Role} {usage : Usage} {form : Form Node}
    (h : role.Suits usage form) :
    form.Cleft := by
  cases h with
  | statement _ cleft => exact cleft
  | expression kind _ | target kind _ => simp [Form.Cleft, Form.colon?_of_isExpression kind]
  | param | item | bound | declared => simp [Form.Cleft, Form.colon?]

namespace Place

variable {p : Place}

/-- The first scope along the way in whose header the way does not lead. -/
def enclosingAlong (tree : Nat) : List (Nat × Node) → Option Place
  | [] => none
  | (i, n) :: rest =>
    if n.form.isScope && !n.form.isHeaderPart i then some ⟨tree, n, rest⟩
    else enclosingAlong tree rest

/-- The scope around the place, by the parts that the way up goes through. -/
def enclosing? (p : Place) : Option Place := enclosingAlong p.tree p.above

/-- How a place stands to the colons of the definitions around it. -/
structure Sited (p : Place) : Prop where
  nested : p.node.Nested false
  fits : ∃ role, p.node.Fits role
  before : ∀ x ∈ p.above, ∀ colon ∈ x.2.form.colon?, x.1 < x.2.form.header.length → p.stop ≤ colon
  behind : ∀ x ∈ p.above, ∀ colon ∈ x.2.form.colon?, x.2.form.header.length ≤ x.1 →
    p.node.Behind colon

theorem Sited.child (h : p.Sited) {child : Place} (hchild : child ∈ p.children) : child.Sited := by
  obtain ⟨i, n, hn, -, rfl⟩ := exists_enter_of_mem_children hchild
  have hmem : n ∈ p.node.children := mem_of_getElem? hn
  obtain ⟨hnested, hstop, hbehind⟩ := h.nested.child hmem
  obtain ⟨role, hfits⟩ := h.fits
  refine ⟨hnested, ?_, ?_, ?_⟩
  · rw [Node.children, ← Form.map_snd_roles role] at hmem
    obtain ⟨x, hx, rfl⟩ := mem_map.mp hmem
    exact ⟨x.1, hfits.part x hx⟩
  · rintro x hx colon hcolon hlt
    rcases mem_cons.mp hx with rfl | hx
    · rw [Node.children, Form.parts_of_colon? hcolon, getElem?_append_left hlt] at hn
      exact (hfits.suits.cleft colon hcolon).1 n (mem_of_getElem? hn)
    · exact hstop.trans (h.before x hx colon hcolon hlt)
  · rintro x hx colon hcolon hle
    rcases mem_cons.mp hx with rfl | hx
    · rw [Node.children, Form.parts_of_colon? hcolon, getElem?_append_right hle] at hn
      exact (hfits.suits.cleft colon hcolon).2 n (mem_of_getElem? hn)
    · exact hbehind colon (h.behind x hx colon hcolon hle)

/-- A place begins up to the colon of a definition exactly if it is below the header. -/
theorem Sited.upTo_colon (h : p.Sited) {x : Nat × Node} (hx : x ∈ p.above) {colon : Position}
    (hcolon : x.2.form.colon? = some colon) :
    p.start.upTo colon = decide (x.1 < x.2.form.header.length) := by
  rw [Bool.eq_iff_iff, Position.upTo_iff, decide_eq_true_iff]
  constructor
  · intro hle
    by_contra hbody
    have hbehind := (h.behind x hx colon hcolon (by omega)).1
    exact absurd hbehind hle.not_gt
  · intro hlt
    exact h.nested.start_lt_stop.le.trans (h.before x hx colon hcolon hlt)

/-- By position or by part, the scope around a place is the same. -/
theorem Sited.scope?_eq_enclosing? (h : p.Sited) (hname : p.isParamName = false) :
    p.scope? = p.enclosing? := by
  have hpart : ∀ x ∈ p.above, x.2.form.isOuterPart x.1 p.start false =
      x.2.form.isHeaderPart x.1 := by
    intro x hx
    have hcolon (colon : Position) (hfound : x.2.form.colon? = some colon) := h.upTo_colon hx hfound
    cases hform : x.2.form with
    | functionDef | classDef =>
      rw [hform] at hcolon
      simpa [Form.isOuterPart, Form.isHeaderPart] using hcolon _ rfl
    | lambda => simp [Form.isOuterPart, Form.isHeaderPart]
    | _ => simp [Form.isOuterPart, Form.isHeaderPart, Form.header]
  rw [scope?, enclosing?, hname]
  generalize p.above = above at hpart
  induction above with
  | nil => rfl
  | cons x above ih =>
    rw [governorAlong, enclosingAlong, hpart x mem_cons_self]
    simp only [Bool.false_and, Bool.or_false]
    split
    · rfl
    · exact ih fun y hy => hpart y (mem_cons_of_mem _ hy)

end Place

/-- All places below the root of an accepted source are sited. -/
theorem Module.sited_of_ofSource {source : Source} {m : Module} (h : Module.ofSource source = .ok m)
    (tree : Nat) :
    ∀ child ∈ (Place.root tree m).children, child.Sited ∧ child.node.Fits .statement := by
  obtain ⟨_, body, -, hform, hbody⟩ := arranged_of_ofSource h
  intro child hchild
  obtain ⟨i, n, hn, -, rfl⟩ := Place.exists_enter_of_mem_children hchild
  have hmem : n ∈ m.root.children := mem_of_getElem? hn
  rw [Node.children, hform] at hmem
  have hmem : (Role.statement, n) ∈ body.map (Role.statement, ·) := mem_map_of_mem hmem
  have hfits : n.Fits .statement := hbody.fits _ hmem
  refine ⟨⟨hbody.nested _ hmem, ⟨_, hfits⟩, ?_, ?_⟩, hfits⟩
  · simp [Place.enter, Place.root, hform, Form.colon?]
  · simp [Place.enter, Place.root, hform, Form.colon?]

end NameInference

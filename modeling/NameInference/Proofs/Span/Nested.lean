import NameInference.Syntax.Node
import NameInference.Proofs.Token.Position

/-!
# Nested trees

A tree is nested if every child lies within its parent, decorators lie before what they decorate,
and the children stand one behind the other, where the keywords of a call or a class may stand among
its other arguments. Marking what is bound keeps the spans.
-/

namespace NameInference

namespace Form

variable {ν : Type}

/-- The decorators of a definition; other forms have none. -/
def decorators : Form ν → List ν
  | functionDef _ _ decorators _ _ _ _ => decorators
  | classDef _ decorators _ _ _ _ => decorators
  | _ => []

/-- The parts that are no decorators. -/
def inner (f : Form ν) : List ν := f.parts.drop f.decorators.length

theorem parts_eq (f : Form ν) : f.parts = f.decorators ++ f.inner := by
  cases f <;> simp [inner, decorators, parts]

theorem inner_eq_parts {f : Form ν} (h : f.decorators = []) :
    f.inner = f.parts := by simp [inner, h]

end Form

namespace Node

/-- The node and its decorators begin at or after the position. -/
def Since (n : Node) (p : Position) : Prop := p ≤ n.start ∧ ∀ d ∈ n.form.decorators, p ≤ d.start

theorem Since.mono {n : Node} {p q : Position} (h : n.Since p) (hq : q ≤ p) : n.Since q :=
  ⟨hq.trans h.1, fun d hd => hq.trans (h.2 d hd)⟩

/-- The first of the nodes ends before the other one begins. -/
def Precedes (m n : Node) : Prop := n.Since m.stop

/-- One of the nodes ends before the other begins. -/
def Apart (m n : Node) : Prop := m.Precedes n ∨ n.Precedes m

theorem Apart.symm {m n : Node} (h : m.Apart n) : n.Apart m := Or.symm h

/-- Two rows of nodes as one, by where the nodes begin. -/
def mixed (args values : List Node) : List Node :=
  args.merge values fun a b => decide (a.start ≤ b.start)

theorem mixed_perm (args values : List Node) : (mixed args values).Perm (args ++ values) :=
  List.merge_perm_append _

theorem mixed_cons_left {args values : List Node} {a : Node} (h : ∀ v ∈ values, a.start < v.start) :
    mixed (a :: args) values = a :: mixed args values := by
  cases values with
  | nil => simp [mixed]
  | cons v values => simp [mixed, (h v List.mem_cons_self).le]

theorem mixed_cons_right {args values : List Node} {v : Node} (h : ∀ a ∈ args, v.start < a.start) :
    mixed args (v :: values) = v :: mixed args values := by
  cases args with
  | nil => simp [mixed]
  | cons a args => simp [mixed, (h a List.mem_cons_self).not_ge]

end Node

/-- The parts of a form in the order in which they stand: keywords may stand among the other
arguments. -/
def Form.standing : Form Node → List Node
  | classDef _ decorators ident bases keywords body =>
    decorators ++ ident :: Node.mixed bases (keywords.map (·.value)) ++ body
  | call callee args keywords => callee :: Node.mixed args (keywords.map (·.value))
  | form => form.parts

theorem Form.standing_perm (form : Form Node) : form.standing.Perm form.parts := by
  cases form with
  | classDef _ decorators ident bases keywords body =>
    have hheader := ((Node.mixed_perm bases (keywords.map (·.value))).cons ident).append_left
      decorators
    simpa [standing, parts] using hheader.append_right body
  | call callee args keywords => exact (Node.mixed_perm args _).cons callee
  | _ => exact .refl _

namespace Node

/-- If the children stand one behind the other, no two of them overlap. -/
theorem apart_of_order {n : Node} (h : n.form.standing.Pairwise Precedes) :
    n.children.Pairwise Apart :=
  (n.form.standing_perm.pairwise_iff Apart.symm).mp (h.imp Or.inl)

/-- The spans are nested from the node on: its children lie within it, its decorators before it, and
they stand one behind the other. Nothing is decorated below a decorator, and nothing at all if the
node is to be plain. -/
inductive Nested : Bool → Node → Prop where
  | mk {plain : Bool} {n : Node} (lt : n.start < n.stop) (undecorated : plain = true →
    n.form.decorators = [])
      (decorator : ∀ d ∈ n.form.decorators, Nested true d)
        (before : ∀ d ∈ n.form.decorators, d.stop ≤ n.start)
      (part : ∀ child ∈ n.form.inner, Nested plain child)
      (within : ∀ child ∈ n.form.inner, child.Since n.start ∧ child.stop ≤ n.stop)
      (order : n.form.standing.Pairwise Precedes) : Nested plain n

namespace Nested

variable {n : Node} {plain : Bool}

theorem start_lt_stop (h : n.Nested plain) : n.start < n.stop := by
  cases h
  assumption

theorem decorators_eq_nil (h : n.Nested true) : n.form.decorators = [] := by
  cases h with
  | mk _ undecorated => exact undecorated rfl

theorem since (h : n.Nested true) {p : Position} (hp : p ≤ n.start) : n.Since p := by
  refine ⟨hp, fun d hd => ?_⟩
  rw [h.decorators_eq_nil] at hd
  cases hd

theorem order (h : n.Nested plain) : n.form.standing.Pairwise Precedes := by
  cases h
  assumption

/-- The children of a plain node are plain and lie within it. -/
theorem children_of_plain (h : n.Nested true) :
    ∀ child ∈ n.children, child.Nested true ∧ child.Since n.start ∧ child.stop ≤ n.stop := by
  have hdecorators := h.decorators_eq_nil
  cases h with
  | mk _ _ _ _ part within _ =>
    rw [Form.inner_eq_parts hdecorators] at part within
    exact fun child hchild => ⟨part child hchild, within child hchild⟩

/-- What is plain may stand where decorators are allowed. -/
theorem loosen (h : n.Nested true) (plain : Bool) : n.Nested plain := by
  generalize htrue : true = only at h
  induction h with
  | mk lt undecorated decorator before part within order _ ihpart =>
    subst htrue
    exact .mk lt (fun _ => undecorated rfl) decorator before
      (fun child hchild => ihpart child hchild rfl) within order

end Nested

end Node

namespace Node

theorem allWithUsage_eq (usage : Usage) (nodes : List Node) :
    allWithUsage usage nodes = nodes.map (withUsage usage) := by
  induction nodes with
  | nil => rw [allWithUsage, List.map_nil]
  | cons n nodes ih => rw [allWithUsage, ih, List.map_cons]

/-- Marking leaves a form as it is or marks all of its parts, none of which is a decorator. -/
theorem formWithUsage_cases (usage : Usage) (form : Form Node) :
    formWithUsage usage form = form ∨
      form.decorators = [] ∧ (formWithUsage usage form).decorators = [] ∧
        (formWithUsage usage form).parts = form.parts.map (withUsage usage) ∧
        (formWithUsage usage form).standing = form.standing.map (withUsage usage) := by
  unfold formWithUsage
  split
  · exact Or.inr ⟨rfl, rfl, allWithUsage_eq usage _, allWithUsage_eq usage _⟩
  · exact Or.inr ⟨rfl, rfl, allWithUsage_eq usage _, allWithUsage_eq usage _⟩
  · exact Or.inr ⟨rfl, rfl, rfl, rfl⟩
  · exact Or.inl rfl

@[simp] theorem start_withUsage (usage : Usage) (n : Node) :
    (n.withUsage usage).start = n.start := by
  obtain ⟨span, _, form⟩ := n
  rw [withUsage]
  rfl

@[simp] theorem stop_withUsage (usage : Usage) (n : Node) : (n.withUsage usage).stop = n.stop := by
  obtain ⟨span, _, form⟩ := n
  rw [withUsage]
  rfl

theorem form_withUsage (usage : Usage) (n : Node) :
    (n.withUsage usage).form = formWithUsage usage n.form := by
  obtain ⟨span, _, form⟩ := n
  rw [withUsage]
  rfl

theorem decorators_withUsage (usage : Usage) (n : Node) :
    (n.withUsage usage).form.decorators = n.form.decorators := by
  rw [form_withUsage]
  rcases formWithUsage_cases usage n.form with h | ⟨h, h', -, -⟩
  · rw [h]
  · rw [h, h']

theorem since_withUsage {usage : Usage} {n : Node} {p : Position} :
    (n.withUsage usage).Since p ↔ n.Since p := by
  rw [Since, Since, decorators_withUsage, start_withUsage]

theorem precedes_withUsage {usage : Usage} {m n : Node} :
    (m.withUsage usage).Precedes (n.withUsage usage) ↔ m.Precedes n := by
  rw [Precedes, Precedes, since_withUsage, stop_withUsage]

/-- Marking keeps the spans. -/
theorem Nested.withUsage {n : Node} {plain : Bool} (h : n.Nested plain) (usage : Usage) :
    (n.withUsage usage).Nested plain := by
  induction h with
  | @mk plain n lt undecorated decorator before part within order _ ihpart =>
    rcases formWithUsage_cases usage n.form with hsame | ⟨hnone, hnone', hparts, hstanding⟩
    · refine .mk (by simpa using lt) ?_ ?_ ?_ ?_ ?_ ?_
      all_goals
        simp only [form_withUsage, hsame, start_withUsage, stop_withUsage]
        assumption
    · rw [Form.inner_eq_parts hnone] at ihpart within
      refine .mk (by simpa using lt) (fun _ => by rw [form_withUsage, hnone']) ?_ ?_ ?_ ?_ ?_
      · simp [form_withUsage, hnone']
      · simp [form_withUsage, hnone']
      · rw [form_withUsage, Form.inner_eq_parts hnone', hparts]
        intro child hchild
        obtain ⟨m, hm, rfl⟩ := List.mem_map.mp hchild
        exact ihpart m hm
      · rw [form_withUsage, Form.inner_eq_parts hnone', hparts]
        intro child hchild
        obtain ⟨m, hm, rfl⟩ := List.mem_map.mp hchild
        rw [since_withUsage, stop_withUsage, start_withUsage, stop_withUsage]
        exact within m hm
      · rw [form_withUsage, hstanding, List.pairwise_map]
        exact order.imp precedes_withUsage.mpr

end Node

end NameInference

import Mathlib.Data.List.Forall2
import NameInference.Proofs.Role.Fits

/-!
# Nodes that stand beside each other

While a rule reads a node, the nodes it has read stand one behind the other, each in the role that
it was read for: they are arranged between two positions. The finished node is nested and fits its
own role because its parts are arranged, and below it a block is empty only where an indentation is
left as soon as it was entered.
-/

namespace NameInference

open Form List

variable {x : Role × Node}

@[simp] theorem flatMap_single {α β : Type} (f : α → β) (as : List α) :
    (as.flatMap fun a => [f a]) = as.map f :=
  map_eq_flatMap.symm

/-- The tokens do not go on behind an indent with a newline or the end. -/
def Marked (tokens : List Token) : Prop :=
  ∀ before indent next after, tokens = before ++ indent :: next :: after → indent.kind = .indent →
    next.kind ≠ .newline ∧ next.kind ≠ .done

/-- The tokens that the rules of the grammar are followed through. -/
class Reading where
  tokens : List Token
  marked : Marked tokens

variable [Reading]

/-- Behind a colon between the two positions stands an indentation that is left at once. -/
def HollowBetween (lo hi : Position) : Prop :=
  ∃ before colon newline indent dedent after,
    Reading.tokens = before ++ colon :: newline :: indent :: dedent :: after ∧ colon.kind = .colon ∧
    newline.kind = .newline ∧ indent.kind = .indent ∧ dedent.kind = .dedent ∧ lo ≤ colon.start ∧
    colon.stop ≤ hi

theorem HollowBetween.mono {lo lo' hi hi' : Position} (h : HollowBetween lo hi) (hlo : lo' ≤ lo)
    (hhi : hi ≤ hi') :
    HollowBetween lo' hi' := by
  obtain ⟨before, colon, newline, indent, dedent, after, hsplit, hcolon, hnewline, hindent, hdedent,
    hbounds⟩ := h
  refine ⟨before, colon, newline, indent, dedent, after, hsplit, hcolon, hnewline, hindent, hdedent,
    ?_⟩
  exact hbounds.imp hlo.trans fun hstop => hstop.trans hhi

namespace Node

/-- From the node on down, only a hollow block is empty. -/
inductive Filled : Node → Prop where
  | mk {n : Node} (block : n.form.block? = some [] → HollowBetween n.start n.stop)
      (part : ∀ child ∈ n.children, Filled child) : Filled n

namespace Filled

variable {n : Node}

theorem block (h : n.Filled) : n.form.block? = some [] → HollowBetween n.start n.stop := by
  cases h
  assumption

theorem part (h : n.Filled) : ∀ child ∈ n.children, child.Filled := by
  cases h
  assumption

/-- What is marked as bound has no block. -/
theorem withUsage (h : n.Filled) (usage : Usage) : (n.withUsage usage).Filled := by
  have hblock (form : Form Node) : (formWithUsage usage form).block? = form.block? := by
    unfold formWithUsage
    split <;> rfl
  induction h with
  | @mk n block part ih =>
    refine .mk (fun hempty => ?_) ?_
    · rw [form_withUsage, hblock] at hempty
      rw [start_withUsage, stop_withUsage]
      exact block hempty
    · rw [children, form_withUsage]
      rcases formWithUsage_cases usage n.form with hsame | ⟨-, -, hparts, -⟩
      · rw [hsame]
        exact part
      · rw [hparts]
        exact forall_mem_map.mpr ih

end Filled

end Node

/-- The nodes fit their roles, are nested and filled, and stand one behind the other between the
positions. Only below a statement may anything be decorated. -/
structure Arranged (lo : Position) (parts : List (Role × Node)) (hi : Position) : Prop where
  le : lo ≤ hi
  fits : ∀ x ∈ parts, x.2.Fits x.1
  nested : ∀ x ∈ parts, x.2.Nested (x.1 != .statement)
  filled : ∀ x ∈ parts, x.2.Filled
  since : ∀ x ∈ parts, x.2.Since lo
  before : ∀ x ∈ parts, x.2.stop ≤ hi
  order : parts.Pairwise fun x y => x.2.Precedes y.2

namespace Arranged

variable {lo mid hi start : Position} {parts more : List (Role × Node)} {role : Role}
  {usage : Usage} {n : Node} {form : Form Node}

theorem nil (h : lo ≤ hi) : Arranged lo [] hi :=
  ⟨h, by simp, by simp, by simp, by simp, by simp, .nil⟩

theorem single (hfits : n.Fits role) (hn : n.Nested (role != .statement)) (hfilled : n.Filled)
    (hsince : n.Since lo) (hstop : n.stop ≤ hi) : Arranged lo [(role, n)] hi where
  le := hsince.1.trans (hn.start_lt_stop.le.trans hstop)
  fits := by simpa using hfits
  nested := by simpa using hn
  filled := by simpa using hfilled
  since := by simpa using hsince
  before := by simpa using hstop
  order := pairwise_singleton _ _

theorem mono {lo' hi' : Position} (h : Arranged lo parts hi) (hlo : lo' ≤ lo) (hhi : hi ≤ hi') :
    Arranged lo' parts hi' where
  le := hlo.trans (h.le.trans hhi)
  fits := h.fits
  nested := h.nested
  filled := h.filled
  since x hx := (h.since x hx).mono hlo
  before x hx := (h.before x hx).trans hhi
  order := h.order

/-- What is arranged up to a position and what is arranged from there on are arranged together. -/
theorem append (h : Arranged lo parts mid) (hmore : Arranged mid more hi) :
    Arranged lo (parts ++ more) hi where
  le := h.le.trans hmore.le
  fits x hx := (mem_append.mp hx).elim (h.fits x) (hmore.fits x)
  nested x hx := (mem_append.mp hx).elim (h.nested x) (hmore.nested x)
  filled x hx := (mem_append.mp hx).elim (h.filled x) (hmore.filled x)
  since x hx := (mem_append.mp hx).elim (h.since x) fun hx => (hmore.since x hx).mono h.le
  before x hx := (mem_append.mp hx).elim (fun hx => (h.before x hx).trans hmore.le) (hmore.before x)
  order := pairwise_append.mpr ⟨h.order, hmore.order, fun x hx y hy =>
    (hmore.since y hy).mono (h.before x hx)⟩

theorem sublist (h : Arranged lo parts hi) (hsub : more.Sublist parts) : Arranged lo more hi where
  le := h.le
  fits x hx := h.fits x (hsub.subset hx)
  nested x hx := h.nested x (hsub.subset hx)
  filled x hx := h.filled x (hsub.subset hx)
  since x hx := h.since x (hsub.subset hx)
  before x hx := h.before x (hsub.subset hx)
  order := h.order.sublist hsub

theorem head (h : Arranged lo (x :: parts) hi) : Arranged lo [x] hi :=
  h.sublist (singleton_sublist.mpr mem_cons_self)

theorem tail (h : Arranged lo (x :: parts) hi) : Arranged lo parts hi :=
  h.sublist (sublist_cons_self _ _)

/-- A plain node stands between its own ends. -/
theorem focus (h : Arranged lo [(role, n)] hi) (hrole : (role != .statement) = true) :
    Arranged n.start [(role, n)] hi := by
  have hn := h.nested _ (mem_singleton_self _)
  have hplain : n.Nested true := hrole ▸ hn
  have hmem := mem_singleton_self (role, n)
  exact single (h.fits _ hmem) hn (h.filled _ hmem) (hplain.since le_rfl) (h.before _ hmem)

theorem le_start (h : Arranged lo [(role, n)] hi) : lo ≤ n.start :=
  (h.since _ (List.mem_singleton_self _)).1

/-- Where a node stands there is room. -/
theorem lt_of_mem (h : Arranged lo parts hi) (hx : x ∈ parts) : lo < hi :=
  (h.since x hx).1.trans_lt ((h.nested x hx).start_lt_stop.trans_le (h.before x hx))

theorem starts_lt (h : Arranged lo parts hi) :
    (parts.map Prod.snd).Pairwise fun m n => m.start < n.start :=
  pairwise_map.mpr (h.order.imp_of_mem fun hx _ hxy => (h.nested _ hx).start_lt_stop.trans_le hxy.1)

section Around

variable (h : Arranged lo parts hi) (hparts : parts.Perm (form.roles role))

include h hparts

/-- The parts of a form as its children. -/
theorem of_mem_parts (hn : n ∈ form.parts) : n.Since lo ∧ n.stop ≤ hi ∧ ∃ x ∈ parts, x.2 = n := by
  rw [← map_snd_roles role] at hn
  obtain ⟨x, hx, rfl⟩ := mem_map.mp hn
  have hx := hparts.mem_iff.mpr hx
  exact ⟨h.since x hx, h.before x hx, x, hx, rfl⟩

/-- What may stand below a node of a form that suits a role. -/
theorem nested_parts (hsuits : role.Suits usage form) (hn : n ∈ form.parts) :
    n.Nested (role != .statement) := by
  obtain ⟨-, -, x, hx, rfl⟩ := h.of_mem_parts hparts hn
  have hnested := h.nested x hx
  by_cases hstatement : x.1 = .statement
  · obtain ⟨found, part⟩ := x
    subst hstatement
    rw [hsuits.eq_statement (hasStatements_of_mem_roles (hparts.mem_iff.mp hx))]
    exact hnested
  · rw [bne_iff_ne.mpr hstatement] at hnested
    exact hnested.loosen _

/-- The form around arranged parts is filled if it has no block or a hollow one. -/
theorem filled_of_block {span : Span}
    (hblock : form.block? = some [] → HollowBetween span.start span.stop) :
    (Node.mk span usage form).Filled := by
  refine .mk hblock fun child hchild => ?_
  obtain ⟨-, -, x, hx, rfl⟩ := h.of_mem_parts hparts hchild
  exact h.filled x hx

/-- A node around arranged parts is nested and fits its role. -/
theorem node (hlo : start ≤ lo) (hlt : start < hi) (hstanding : parts.map Prod.snd = form.standing)
    (hsuits : role.Suits usage form) (hdecorators : form.decorators = [])
    (hblock : form.block? = some [] → HollowBetween start hi) :
    Arranged start [(role, .mk ⟨start, hi⟩ usage form)] hi := by
  have hempty : ∀ d ∈ form.decorators, False := by simp [hdecorators]
  have horder : form.standing.Pairwise Node.Precedes := hstanding ▸ pairwise_map.mpr h.order
  refine single (.mk hsuits fun x hx => h.fits x (hparts.mem_iff.mpr hx))
    (.mk hlt (fun _ => hdecorators) ?_ ?_ ?_ ?_ horder)
    (h.filled_of_block hparts hblock) ⟨le_rfl, fun d hd => (hempty d hd).elim⟩ le_rfl
  · exact fun d hd => (hempty d hd).elim
  · exact fun d hd => (hempty d hd).elim
  · exact fun child hchild => h.nested_parts hparts hsuits (mem_of_mem_drop hchild)
  · intro child hchild
    obtain ⟨hsince, hstop, -⟩ := h.of_mem_parts hparts (mem_of_mem_drop hchild)
    exact ⟨hsince.mono hlo, hstop⟩

end Around

theorem expression (h : Arranged lo parts hi) (hlo : start ≤ lo) (hlt : start < hi)
    (hparts : parts.Perm (form.roles .expression)) (hstanding : parts.map Prod.snd = form.standing)
    (hkind : form.isExpression = true) (hname : form.isName = false) :
    Arranged start [(.expression, .mk ⟨start, hi⟩ usage form)] hi := by
  refine h.node hparts hlo hlt hstanding (.expression hkind fun id hid => ?_) ?_ fun hblock => ?_
  · cases hid
    cases hname
  · cases form <;> first | rfl | cases hkind
  · have hstatements := hasStatements_of_block? hblock
    rw [hasStatements_of_isExpression hkind] at hstatements
    cases hstatements

/-- An expression whose parts stand in the order of its form. -/
theorem plain (h : Arranged lo parts hi) (hlo : start ≤ lo) (hlt : start < hi)
    (hparts : form.roles .expression = parts) (hplain : form.isPlain = true) :
    Arranged start [(.expression, .mk ⟨start, hi⟩ usage form)] hi := by
  refine h.expression hlo hlt (.of_eq hparts.symm) ?_ ?_ ?_
  · rw [← hparts, map_snd_roles]
    cases form <;> first | rfl | cases hplain
  · cases form <;> first | exact hplain | cases hplain
  · cases form <;> first | rfl | cases hplain

theorem statement (h : Arranged lo parts hi) (hlo : start ≤ lo) (hlt : start < hi)
    (hparts : form.roles .statement = parts) (hkind : form.isStatement = true)
    (hcolon : form.colon? = none) (hblock : form.block? = some [] → HollowBetween start hi) :
    Arranged start [(.statement, .mk ⟨start, hi⟩ usage form)] hi := by
  refine h.node (.of_eq hparts.symm) hlo hlt ?_ (.statement hkind (by simp [Form.Cleft, hcolon]))
    ?_ hblock
  · rw [← hparts, map_snd_roles]
    cases form <;> first | rfl | (cases hcolon; done) | cases hkind
  · cases form <;> first | rfl | cases hcolon

/-- The parts of an expression are arranged within it. -/
theorem parts_expression (h : Arranged lo [(.expression, n)] hi)
    (hstanding : n.form.standing = n.form.parts) :
    Arranged n.start (n.form.roles .expression) n.stop := by
  have hnested : n.Nested true := h.nested _ (mem_singleton_self _)
  have hchildren := hnested.children_of_plain
  have horder := hnested.order
  rw [hstanding, ← map_snd_roles .expression] at horder
  rw [Node.children, ← map_snd_roles .expression] at hchildren
  have hpart {x : Role × Node} (hx : x ∈ n.form.roles .expression) :=
    hchildren x.2 (mem_map_of_mem hx)
  have hfilled {x : Role × Node} (hx : x ∈ n.form.roles .expression) : x.2.Filled := by
    refine (h.filled _ (mem_singleton_self _)).part x.2 ?_
    rw [Node.children, ← map_snd_roles .expression]
    exact mem_map_of_mem hx
  exact ⟨hnested.start_lt_stop.le, (h.fits _ (mem_singleton_self _)).part,
    fun x hx => (hpart hx).1.loosen _, fun _ => hfilled, fun x hx => (hpart hx).2.1,
    fun x hx => (hpart hx).2.2, pairwise_map.mp horder⟩

end Arranged

/-- A definition around its arranged parts is nested, behind its decorators, and its colon stands
between its header and its body. -/
theorem Arranged.definition {lo mid lo' hi start : Position} {colon : Token}
    {decorators body : List Node} {header : List (Role × Node)} {usage : Usage} {form : Form Node}
    (hdecorators : Arranged lo (decorators.map (.expression, ·)) mid) (hmid : mid ≤ start)
    (hlo : start < lo') (hheader : Arranged lo' header colon.start) (hlt : colon.start < colon.stop)
    (hbody : Arranged colon.stop (body.map (.statement, ·)) hi)
    (hcolon : form.colon? = some colon.start) (hform : form.decorators = decorators)
    (hblock : form.body = body)
    (hroles : (decorators.map (Role.expression, ·) ++ (header ++ body.map (Role.statement, ·))).Perm
      (form.roles .statement))
    (hstanding : form.standing = decorators ++ (header.map Prod.snd ++ body))
    (hempty : form.block? = some [] → HollowBetween start hi) :
    Arranged lo [(.statement, .mk ⟨start, hi⟩ usage form)] hi := by
  have hinside := hheader.append (hbody.mono hlt.le le_rfl)
  have hall : Arranged lo (decorators.map (.expression, ·) ++ (header ++ body.map (.statement, ·)))
    hi :=
    hdecorators.append (hinside.mono (hmid.trans hlo.le) le_rfl)
  have hparts : (decorators ++ (header.map Prod.snd ++ body)).Perm form.parts :=
    hstanding ▸ form.standing_perm
  have hinner : (header.map Prod.snd ++ body).Perm form.inner := by
    rwa [form.parts_eq, hform, perm_append_left_iff] at hparts
  have hfront : (decorators ++ header.map Prod.snd).Perm form.header := by
    rwa [parts_of_colon? hcolon, hblock, ← append_assoc, perm_append_right_iff] at hparts
  have hdecorator : ∀ d ∈ form.decorators, d.stop ≤ start ∧ lo ≤ d.start ∧ d.Nested true := by
    intro d hd
    have hd : (Role.expression, d) ∈ decorators.map (Role.expression, ·) :=
      mem_map_of_mem (hform ▸ hd)
    exact ⟨(hdecorators.before _ hd).trans hmid, (hdecorators.since _ hd).1,
      hdecorators.nested _ hd⟩
  have hsuits : Role.statement.Suits usage form := by
    refine .statement (by cases form <;> first | rfl | cases hcolon) fun p hp => ?_
    obtain rfl : colon.start = p := Option.some.inj (hcolon.symm.trans hp)
    rw [hblock]
    refine ⟨fun n hn => ?_,
      fun n hn => (hbody.since (.statement, n) (mem_map_of_mem hn)).behind hlt⟩
    rcases mem_append.mp (hfront.mem_iff.mpr hn) with hn | hn
    · exact (hdecorator n (hform ▸ hn)).1.trans (hlo.le.trans hheader.le)
    · obtain ⟨x, hx, rfl⟩ := mem_map.mp hn
      exact hheader.before x hx
  have hplain : (Role.statement != .statement) = true → form.decorators = [] :=
    fun h => absurd h (by decide)
  have horder : form.standing.Pairwise Node.Precedes := by
    have horder := pairwise_map.mpr hall.order
    rw [hstanding]
    simpa [Function.comp_def] using horder
  refine single (.mk hsuits fun x hx => hall.fits x (hroles.mem_iff.mpr hx))
    (.mk (hlo.trans_le hinside.le) hplain (fun d hd => (hdecorator d hd).2.2)
      (fun d hd => (hdecorator d hd).1) ?_ ?_ horder) (hall.filled_of_block hroles hempty)
    ⟨hdecorators.le.trans hmid, ?_⟩ le_rfl
  · exact fun child hchild => hall.nested_parts hroles hsuits (mem_of_mem_drop hchild)
  · intro child hchild
    have hmem : ∃ x ∈ header ++ body.map (Role.statement, ·), x.2 = child := by
      rcases mem_append.mp (hinner.mem_iff.mpr hchild) with hchild | hchild
      · obtain ⟨x, hx, rfl⟩ := mem_map.mp hchild
        exact ⟨x, mem_append_left _ hx, rfl⟩
      · exact ⟨(.statement, child), mem_append_right _ (mem_map_of_mem hchild), rfl⟩
    obtain ⟨x, hx, rfl⟩ := hmem
    exact ⟨(hinside.since x hx).mono hlo.le, hinside.before x hx⟩
  · exact fun d hd => (hdecorator d hd).2.1

/-- The second node may stand where the first one stands. -/
structure Replaces (x y : Role × Node) : Prop where
  fits : x.2.Fits x.1 → y.2.Fits y.1
  nested : x.2.Nested (x.1 != .statement) → y.2.Nested (y.1 != .statement)
  filled : x.2.Filled → y.2.Filled
  since : ∀ p, x.2.Since p → y.2.Since p
  stop_eq : y.2.stop = x.2.stop

namespace Replaces

theorem refl (x : Role × Node) : Replaces x x := ⟨id, id, id, fun _ => id, rfl⟩

theorem trans {x y z : Role × Node} (h : Replaces x y) (h' : Replaces y z) : Replaces x z :=
  ⟨h'.fits ∘ h.fits, h'.nested ∘ h.nested, h'.filled ∘ h.filled, fun p => h'.since p ∘ h.since p,
    h'.stop_eq.trans h.stop_eq⟩

/-- An expression can be marked as a target. -/
theorem bound {n : Node} : Replaces (.expression, n) (.target, n.withUsage .store) :=
  ⟨.bind, fun h => h.withUsage _, fun h => h.withUsage _, fun _ h => Node.since_withUsage.mpr h,
    Node.stop_withUsage _ n⟩

/-- An expression can be marked as deleted. -/
theorem deleted {n : Node} : Replaces (.expression, n) (.expression, n.withUsage .del) :=
  ⟨.delete, fun h => h.withUsage _, fun h => h.withUsage _, fun _ h => Node.since_withUsage.mpr h,
    Node.stop_withUsage _ n⟩

/-- A parameter can take arguments in another way. -/
theorem param {span : Span} {usage : Usage} {kind kind' : ParamKind} {name : Node}
    {hint default : Option Node} :
    Replaces (.param, .mk span usage (.param kind name hint default))
      (.param, .mk span usage (.param kind' name hint default)) := by
  refine ⟨fun h => .mk (.param ..) h.part, fun h => ?_, fun h => .mk (by rintro ⟨⟩) h.part,
    fun _ => id, rfl⟩
  cases h with
  | mk lt undecorated decorator before part within order =>
    exact .mk lt undecorated decorator before part within order

end Replaces

private theorem exists_replaced {parts more : List (Role × Node)}
    (h : List.Forall₂ Replaces parts more) {y : Role × Node} (hy : y ∈ more) :
    ∃ x ∈ parts, Replaces x y := by
  induction h with
  | nil => cases hy
  | @cons x z parts more hxz _ ih =>
    rcases mem_cons.mp hy with rfl | hy
    · exact ⟨x, mem_cons_self, hxz⟩
    · obtain ⟨w, hw, hwy⟩ := ih hy
      exact ⟨w, mem_cons_of_mem _ hw, hwy⟩

theorem Arranged.replace {lo hi : Position} {parts more : List (Role × Node)}
    (h : Arranged lo parts hi) (hreplaces : List.Forall₂ Replaces parts more) :
    Arranged lo more hi := by
  have hmore (y : Role × Node) (hy : y ∈ more) :
      y.2.Fits y.1 ∧ y.2.Nested (y.1 != .statement) ∧ y.2.Filled ∧ y.2.Since lo ∧
      y.2.stop ≤ hi := by
    obtain ⟨x, hx, hxy⟩ := exists_replaced hreplaces hy
    exact ⟨hxy.fits (h.fits x hx), hxy.nested (h.nested x hx), hxy.filled (h.filled x hx),
      hxy.since lo (h.since x hx), hxy.stop_eq.le.trans (h.before x hx)⟩
  refine ⟨h.le, fun y hy => (hmore y hy).1, fun y hy => (hmore y hy).2.1,
    fun y hy => (hmore y hy).2.2.1, fun y hy => (hmore y hy).2.2.2.1,
    fun y hy => (hmore y hy).2.2.2.2, ?_⟩
  have horder := h.order
  clear h hmore
  induction hreplaces with
  | nil => exact .nil
  | @cons x y parts more hxy hrest ih =>
    obtain ⟨hx, hparts⟩ := pairwise_cons.mp horder
    refine pairwise_cons.mpr ⟨fun z hz => ?_, ih hparts⟩
    obtain ⟨w, hw, hwz⟩ := exists_replaced hrest hz
    rw [Node.Precedes, hxy.stop_eq]
    exact hwz.since _ (hx w hw)

theorem Arranged.bound {lo hi : Position} {n : Node} (h : Arranged lo [(.expression, n)] hi) :
    Arranged lo [(.target, n.withUsage .store)] hi :=
  h.replace (.cons .bound .nil)

end NameInference

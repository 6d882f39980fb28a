import NameInference.Syntax.Place
import NameInference.Proofs.Token.Balance
import NameInference.Proofs.Span.Statement

/-!
# Spans are nested

The visible tokens of an accepted source stand in ascending order before the end, so the statements
of its module are arranged between the first position and the end. Below them nesting goes down from
place to place: a part of a place lies within it and within all that enclose it, and what stands
below a decorator has no decorators itself.
-/

namespace NameInference

open List

variable {source : Source} {tokens : List Token} {m : Module}

/-- Tokens that are ordered where they are visible are ascending up to an end behind all of them. -/
theorem ascending_append_end {p : Position} {last : Token} (hlast : last.kind.isLayout = true)
    (hp : p ≤ last.start) (hendless : Endless tokens)
    (hspan : ∀ t ∈ visible tokens, t.start < t.stop) (hfirst : ∀ t ∈ visible tokens, p ≤ t.start)
    (hstop : ∀ t ∈ visible tokens, t.stop ≤ last.start)
    (hordered : (visible tokens).Pairwise fun a b => a.stop ≤ b.start) :
    Ascending p (tokens ++ [last]) := by
  induction tokens generalizing p with
  | nil =>
    rw [nil_append, Ascending, if_pos hlast]
    exact ⟨fun _ => hp, trivial⟩
  | cons t tokens ih =>
    have hrest : Endless tokens := fun token htoken => hendless token (mem_cons_of_mem _ htoken)
    rw [cons_append, Ascending]
    split
    · next hlayout =>
      have hvisible : visible (t :: tokens) = visible tokens :=
        filter_cons_of_neg (by simp [hlayout])
      rw [hvisible] at hspan hfirst hstop hordered
      exact ⟨fun hdone => absurd hdone (hendless t mem_cons_self),
        ih hp hrest hspan hfirst hstop hordered⟩
    · next hlayout =>
      have hvisible : visible (t :: tokens) = t :: visible tokens :=
        filter_cons_of_pos (by simpa using hlayout)
      rw [hvisible] at hspan hfirst hstop hordered
      obtain ⟨hbehind, hordered⟩ := pairwise_cons.mp hordered
      obtain ⟨hlt, hspan⟩ := forall_mem_cons.mp hspan
      obtain ⟨hstop, hstops⟩ := forall_mem_cons.mp hstop
      exact ⟨hfirst t mem_cons_self, hlt, ih hstop hrest hspan hbehind hstops hordered⟩

theorem Cursor.ordered_ofTokens [Reading] {last : Token} (hlast : last.kind.isLayout = true)
    (hread : Reading.tokens = tokens ++ [last]) (h : Ascending ⟨1, 1⟩ (tokens ++ [last])) :
    (Cursor.ofTokens (tokens ++ [last])).Ordered ∧ (Cursor.ofTokens (tokens ++ [last])).lastEnd =
      ⟨1, 1⟩ := by
  have hsuffix : tokens ++ [last] <:+ Reading.tokens := hread ▸ suffix_rfl
  cases tokens with
  | nil => exact ⟨⟨h, hlast, hsuffix⟩, rfl⟩
  | cons first rest => exact ⟨⟨h, by simpa [Cursor.ofTokens] using hlast, hsuffix⟩, rfl⟩

theorem Lines.HasPosition.first_le {lines : List Text} {p : Position} (h : HasPosition lines p) :
    ⟨1, 1⟩ ≤ p := by
  obtain ⟨line, hline, hcol, -⟩ := h
  obtain ⟨k, hk, -⟩ := mem_numbered.mp hline
  rw [Position.le_iff]
  simp only
  omega

/-- A newline needs a line that has been begun, and at the end every indentation has been left. -/
theorem Source.marked_of_stackedTokens {sources : List Source}
    (h : stackedTokens sources = .ok tokens) : Marked tokens := by
  obtain ⟨read, last, rfl, hlast, htracks⟩ := readAllTokens_tracks Layout.Tracks.empty h
  rw [nil_append] at htracks
  intro before indent next after hsplit hindent
  have hsplit : read ++ [last] = (before ++ [indent]) ++ next :: after := by simpa using hsplit
  rcases split_concat hsplit with ⟨hread, rfl⟩ | ⟨rest, hread⟩
  · refine ⟨by simp [hlast], fun _ => ?_⟩
    have hcount : countKind .indent read = countKind .dedent read := by simpa using htracks.count
    have hle := htracks.placed.dedents_le hread.symm
    rw [← hread, countKind_append, countKind_append, countKind_singleton, countKind_singleton,
      hindent, if_pos rfl, if_neg (by decide)] at hcount
    omega
  · have hplaced := htracks.placed (before ++ [indent]) next rest hread
    refine ⟨fun hnewline => hplaced.newline hnewline ?_, hplaced.not_end⟩
    rw [atLineStart_concat, hindent]
    rfl

/-- A reader of an accepted source begins with its tokens in order. -/
theorem Source.ordered_of_stackedTokens [Reading]
    (h : stackedTokens [source] = .ok Reading.tokens) :
    (Cursor.ofTokens Reading.tokens).Ordered ∧ (Cursor.ofTokens Reading.tokens).lastEnd =
      ⟨1, 1⟩ := by
  obtain ⟨account, read, hread, hendless⟩ := account_of_stackedTokens h
  rw [hread] at account ⊢
  have hend : visible [source.endToken] = [] := rfl
  rw [visible_append, hend, append_nil] at account
  refine Cursor.ordered_ofTokens rfl hread
    (ascending_append_end rfl ?_ hendless ?_ ?_ account.stop_le account.ordered)
  · simp only [endToken, Layout.mark, Token.start, Position.le_iff]
    omega
  · exact fun t ht => (account.spells t ht).start_lt_stop
  · exact fun t ht => (account.spells t ht).hasStart.first_le

/-- An accepted source is a module of statements, which are arranged between its ends. -/
theorem Module.arranged_of_ofSource (h : Module.ofSource source = .ok m) :
    ∃ (_ : Reading) (body : List Node), Source.stackedTokens [source] = .ok Reading.tokens ∧
      m.root.form = .module body ∧
      Arranged m.root.start (body.map (.statement, ·)) m.root.stop := by
  obtain ⟨tokens, htokens, h⟩ := exists_of_bind_eq_ok h
  let reading : Reading := ⟨tokens, Source.marked_of_stackedTokens htokens⟩
  obtain ⟨read, hread, h⟩ := exists_of_bind_eq_ok h
  obtain ⟨⟨body, last⟩, hbody, hread⟩ := exists_of_bind_eq_ok hread
  cases hread
  cases h
  obtain ⟨hordered, hfirst⟩ := Source.ordered_of_stackedTokens htokens
  have harranged := Grammar.arranged_statements hordered hbody
  rw [hfirst] at harranged
  exact ⟨reading, body, htokens, rfl, harranged⟩

/-- The statements of an accepted source have their roles. -/
theorem Module.fits_of_ofSource (h : Module.ofSource source = .ok m) :
    ∃ body, m.root.form = .module body ∧ ∀ n ∈ body, n.Fits .statement := by
  obtain ⟨_, body, -, hroot, harranged⟩ := arranged_of_ofSource h
  exact ⟨body, hroot, fun n hn => harranged.fits (.statement, n) (mem_map_of_mem hn)⟩

/-- The statements of a module are nested and stand one behind the other between its ends. -/
theorem Module.children_of_ofSource (h : Module.ofSource source = .ok m) :
    m.root.form.decorators = [] ∧
      (∀ n ∈ m.root.children, n.Nested false ∧ n.Since m.root.start ∧ n.stop ≤ m.root.stop) ∧
      m.root.children.Pairwise Node.Precedes := by
  obtain ⟨_, body, -, hroot, harranged⟩ := arranged_of_ofSource h
  have horder := pairwise_map.mp harranged.order
  rw [Node.children, hroot]
  refine ⟨rfl, fun n hn => ?_, horder⟩
  have hmem : (Role.statement, n) ∈ body.map (Role.statement, ·) := mem_map_of_mem hn
  exact ⟨harranged.nested _ hmem, harranged.since _ hmem, harranged.before _ hmem⟩

namespace Place

variable {p : Place}

/-- What children take over from their parents holds of all places below one of which it holds. -/
theorem walk_induction {P : Place → Prop} (hchild : ∀ p, P p → ∀ child ∈ p.children, P child)
    (hp : P p) :
    ∀ q ∈ p.walk, P q := by
  induction p using walk.induct with
  | case1 p ih =>
    intro q hq
    rw [walk, mem_cons, mem_flatMap] at hq
    rcases hq with rfl | ⟨⟨child, hmem⟩, -, hq⟩
    · exact hp
    · exact ih child hmem (hchild p hp child hmem) q hq

theorem exists_of_mem_children {child : Place} (h : child ∈ p.children) :
    child.node ∈ p.node.children ∧ child.ancestors = p :: p.ancestors := by
  obtain ⟨i, hi, rfl⟩ := mem_mapIdx.mp h
  exact ⟨getElem_mem hi, rfl⟩

/-- Nothing is decorated from the place on down, or the place and its decorators lie within all that
is above. -/
def Settled (p : Place) : Prop :=
  p.node.Nested true ∨ p.node.Nested false ∧ ∀ a ∈ p.ancestors, p.node.Since a.start ∧
    p.stop ≤ a.stop

/-- A decorator has no decorators below it; any other child lies within the place and so within all
that is above. -/
theorem Settled.child (h : p.Settled) {child : Place} (hchild : child ∈ p.children) :
    child.Settled := by
  obtain ⟨hmem, hancestors⟩ := exists_of_mem_children hchild
  rcases h with hplain | ⟨hnested, habove⟩
  · exact Or.inl (hplain.children_of_plain child.node hmem).1
  · cases hnested with
    | mk lt _ decorator before part within _ =>
      rw [Node.children, Form.parts_eq, mem_append] at hmem
      rcases hmem with hdecorator | hpart
      · exact Or.inl (decorator child.node hdecorator)
      · obtain ⟨hsince, hstop⟩ := within child.node hpart
        refine Or.inr ⟨part child.node hpart, ?_⟩
        rw [hancestors]
        refine forall_mem_cons.mpr ⟨⟨hsince, hstop⟩, fun a ha => ?_⟩
        obtain ⟨⟨hle, -⟩, hstops⟩ := habove a ha
        exact ⟨hsince.mono hle, hstop.trans hstops⟩

/-- How the span of a place and the spans of its children lie to each other and to the spans above.
-/
structure SpansNest (p : Place) : Prop where
  start_lt_stop : 0 < p.depth → p.start < p.stop
  decorator_before : ∀ d ∈ p.node.form.decorators, d.stop ≤ p.start
  decorator_within : ∀ d ∈ p.node.form.decorators, ∀ a ∈ p.ancestors, a.start ≤ d.start ∧
    d.stop ≤ a.stop
  child_within : ∃ inner, p.node.children = p.node.form.decorators ++ inner ∧
    ∀ child ∈ inner, p.start ≤ child.start ∧ child.stop ≤ p.stop
  disjoint : p.node.children.Pairwise fun a b => a.stop ≤ b.start ∨ b.stop ≤ a.start

theorem disjoint_of_apart {nodes : List Node} (h : nodes.Pairwise Node.Apart) :
    nodes.Pairwise fun a b => a.stop ≤ b.start ∨ b.stop ≤ a.start :=
  h.imp fun hapart => hapart.imp And.left And.left

theorem Settled.spansNest (h : p.Settled) : p.SpansNest := by
  rcases h with hplain | ⟨hnested, habove⟩
  · have hnone := hplain.decorators_eq_nil
    have hinner := hplain.children_of_plain
    refine ⟨fun _ => hplain.start_lt_stop, by simp [hnone], by simp [hnone],
      ⟨p.node.children, by simp [hnone], ?_⟩, disjoint_of_apart (Node.apart_of_order hplain.order)⟩
    exact fun child hchild => ⟨(hinner child hchild).2.1.1, (hinner child hchild).2.2⟩
  · have hapart := Node.apart_of_order hnested.order
    cases hnested with
    | mk lt _ decorator before part within _ =>
      refine ⟨fun _ => lt, before, fun d hd a ha => ?_,
        ⟨p.node.form.inner, p.node.form.parts_eq, ?_⟩, disjoint_of_apart hapart⟩
      · obtain ⟨⟨-, hsince⟩, hstop⟩ := habove a ha
        exact ⟨hsince d hd, (before d hd).trans (lt.le.trans hstop)⟩
      · exact fun child hchild => ⟨(within child hchild).1.1, (within child hchild).2⟩

end Place

/-- The spans of a module are nested at every place of its tree. -/
theorem Module.spansNest_of_ofSource {source : Source} {m : Module}
    (h : Module.ofSource source = .ok m) (tree : Nat) :
    ∀ p ∈ (Place.root tree m).walk, p.SpansNest := by
  obtain ⟨hnone, hinner, horder⟩ := children_of_ofSource h
  intro p hp
  rw [Place.walk, mem_cons, mem_flatMap] at hp
  rcases hp with rfl | ⟨⟨child, hchild⟩, -, hp⟩
  · have hempty : ∀ d ∈ (Place.root tree m).node.form.decorators, False := by
      simp [Place.root, hnone]
    refine ⟨fun h => absurd h (Nat.lt_irrefl 0), fun d hd => (hempty d hd).elim,
      fun d hd => (hempty d hd).elim, ⟨m.root.children, by simp [Place.root, hnone], ?_⟩,
      Place.disjoint_of_apart (horder.imp Or.inl)⟩
    exact fun child hchild => ⟨(hinner child hchild).2.1.1, (hinner child hchild).2.2⟩
  · refine (Place.walk_induction (P := Place.Settled) (fun _ h _ hchild => h.child hchild) ?_ p
      hp).spansNest
    obtain ⟨hmem, hancestors⟩ := Place.exists_of_mem_children hchild
    obtain ⟨hnested, hwithin⟩ := hinner child.node hmem
    refine Or.inr ⟨hnested, ?_⟩
    rw [hancestors]
    exact forall_mem_cons.mpr ⟨hwithin, by simp [Place.root, Place.ancestors, Place.alongWay]⟩

/-- A decorated method with two branches. -/
def Source.decoratedSample : Source :=
  ⟨"class A:\n @f\n def g(x):\n  if x: y\n  elif z: y = x\n", []⟩

theorem Module.spansNest_of_ofSource_decoratedSample :
    ∃ m, Module.ofSource .decoratedSample = .ok m ∧
      ((m.root.children.flatMap Node.children).flatMap fun n => n.form.decorators).length = 1 ∧
      ∀ p ∈ (Place.root 0 m).walk, p.SpansNest := by
  have hlength : (Module.ofSource .decoratedSample).map (fun m =>
      ((m.root.children.flatMap Node.children).flatMap fun n => n.form.decorators).length) =
        .ok 1 := by decide +kernel
  cases h : Module.ofSource .decoratedSample with
  | error e =>
    rw [h] at hlength
    cases hlength
  | ok m =>
    rw [h] at hlength
    exact ⟨m, rfl, Except.ok.inj hlength, spansNest_of_ofSource h 0⟩

end NameInference

import NameInference.Proofs.Syntax.Reads
import NameInference.Proofs.Span.Arranged

/-!
# Rules that arrange nodes

What a rule of the grammar does to the end of the last token, and where and in which roles the nodes
of its result stand. Rules are followed from step to step: behind nodes that are arranged up to the
last token, a further rule arranges its own, and the node that is finished at last encloses all of
them.
-/

namespace NameInference

variable {k : TokenKind} {r : Parse Node} {n : Node} {fault : GrammarFault} {c c' : Cursor}
  {usage : Usage}

/-- From the position on, tokens stand in ascending order. Layout is passed over, but the end comes
behind all. -/
def Ascending (p : Position) : List Token → Prop
  | [] => True
  | t :: rest =>
    if t.kind.isLayout then (t.kind = .done → p ≤ t.start) ∧ Ascending p rest
    else p ≤ t.start ∧ t.start < t.stop ∧ Ascending t.stop rest

/-- Things one after the other between two positions, each of which stands as `S` says. -/
def Linked {α : Type} (S : Position → α → Position → Prop) : Position → List α → Position → Prop
  | lo, [], hi => lo ≤ hi
  | lo, a :: rest, hi => ∃ mid, S lo a mid ∧ Linked S mid rest hi

theorem Linked.le {α : Type} {lo hi : Position} {as : List α}
    (h : Linked (fun lo _ hi => lo ≤ hi) lo as hi) :
    lo ≤ hi := by
  induction as generalizing lo with
  | nil => exact h
  | cons a as ih =>
    obtain ⟨mid, hle, has⟩ := h
    exact hle.trans (ih has)

theorem Cursor.Ordered.lastEnd_advance_of_visible {c : Cursor}
    (hvisible : c.current.kind.isLayout = false) :
    c.advance.lastEnd = c.current.stop := by
  obtain ⟨current, rest, lastEnd⟩ := c
  cases rest <;> simp_all [Cursor.advance]

variable [Reading]

namespace Cursor

/-- The tokens ahead are the last ones that are read. They stand in ascending order behind the last
one taken, and the last of them is layout. -/
structure Ordered (c : Cursor) : Prop where
  ascending : Ascending c.lastEnd (c.current :: c.rest)
  ends : (c.rest.getLastD c.current).kind.isLayout = true
  suffix : (c.current :: c.rest) <:+ Reading.tokens

namespace Ordered

variable {c : Cursor}

theorem current_of_layout (h : c.Ordered) (hlayout : c.current.kind.isLayout = true) :
    (c.current.kind = .done → c.lastEnd ≤ c.current.start) ∧ Ascending c.lastEnd c.rest := by
  have hascending := h.ascending
  rwa [Ascending, if_pos hlayout] at hascending

theorem current_of_visible (h : c.Ordered) (hvisible : c.current.kind.isLayout = false) :
    c.lastEnd ≤ c.current.start ∧ c.current.start < c.current.stop ∧
      Ascending c.current.stop c.rest := by
  have hascending := h.ascending
  rwa [Ascending, if_neg (by simp [hvisible])] at hascending

/-- Taking a token keeps the order. -/
theorem advance (h : c.Ordered) : c.advance.Ordered := by
  obtain ⟨current, rest, lastEnd⟩ := c
  have hends : (rest.getLastD current).kind.isLayout = true := h.ends
  have hsuffix {next : Token} {more : List Token} (hrest : rest = next :: more) : next :: more <:+
    Reading.tokens :=
    hrest ▸ (List.suffix_cons current rest).trans h.suffix
  cases hlayout : current.kind.isLayout with
  | true =>
    cases rest with
    | nil => simpa [Cursor.advance, hlayout] using h
    | cons next rest =>
      rw [List.getLastD_cons] at hends
      refine ⟨?_, hends, hsuffix rfl⟩
      simpa [Cursor.advance, hlayout] using (h.current_of_layout hlayout).2
  | false =>
    cases rest with
    | nil =>
      rw [List.getLastD_nil, hlayout] at hends
      cases hends
    | cons next rest =>
      rw [List.getLastD_cons] at hends
      refine ⟨?_, hends, hsuffix rfl⟩
      simpa [Cursor.advance, hlayout] using (h.current_of_visible hlayout).2.2

theorem lastEnd_le_advance (h : c.Ordered) : c.lastEnd ≤ c.advance.lastEnd := by
  cases hlayout : c.current.kind.isLayout with
  | true =>
    obtain ⟨current, rest, lastEnd⟩ := c
    cases rest <;> simp_all [Cursor.advance]
  | false =>
    rw [lastEnd_advance_of_visible hlayout]
    obtain ⟨hle, hlt, -⟩ := h.current_of_visible hlayout
    exact hle.trans hlt.le

end Ordered

end Cursor

theorem Linked.arranged {α : Type} {parts : α → List (Role × Node)} {lo hi : Position} {as : List α}
    (h : Linked (fun lo a hi => Arranged lo (parts a) hi) lo as hi) :
    Arranged lo (as.flatMap parts) hi := by
  induction as generalizing lo with
  | nil => exact .nil h
  | cons a as ih =>
    obtain ⟨mid, ha, has⟩ := h
    exact ha.append (ih has)

namespace Parse

variable {α β : Type} {lo : Position} {nodes : List (Role × Node)} {role : Role}

/-- The rule keeps the order of tokens, and its result stands between the last token before it and
its own last token as `S` says. -/
def Spans (p : Parse α) (S : Position → α → Position → Prop) : Prop :=
  ∀ ⦃c a c'⦄, c.Ordered → p c = .ok (a, c') → c'.Ordered ∧ S c.lastEnd a c'.lastEnd

/-- The rule reads no nodes. -/
def Silent (p : Parse α) : Prop := Spans p fun lo _ hi => lo ≤ hi

/-- The nodes of the result are arranged behind what was read before. -/
def Lays (p : Parse α) (parts : α → List (Role × Node)) : Prop :=
  Spans p fun lo a hi => Arranged lo (parts a) hi

/-- Behind nodes that are arranged from `lo` on, the rule ends as `Q` says. -/
def Follows (lo : Position) (nodes : List (Role × Node)) (p : Parse α) (Q : α → Position → Prop) :
    Prop :=
  ∀ ⦃c a c'⦄, c.Ordered → Arranged lo nodes c.lastEnd → p c = .ok (a, c') → c'.Ordered ∧
    Q a c'.lastEnd

/-- The node has been read for the role from the position on. -/
abbrev ReadAs (role : Role) (start : Position) (n : Node) (hi : Position) : Prop :=
  Arranged start [(role, n)] hi

/-- The rule reads a node that begins no earlier than the current token, which is not layout. -/
def Opens (role : Role) (p : Parse Node) : Prop :=
  ∀ ⦃c n c'⦄, c.Ordered → p c = .ok (n, c') →
    c'.Ordered ∧ c.current.kind.isLayout = false ∧ ReadAs role c.current.start n c'.lastEnd

/-- The rule reads a node from the current token on, provided that this is not layout. -/
def Begins (role : Role) (p : Parse Node) : Prop :=
  ∀ ⦃c n c'⦄, c.Ordered → c.current.kind.isLayout = false → p c = .ok (n, c') →
    c'.Ordered ∧ ReadAs role c.current.start n c'.lastEnd

theorem silent_kind : Silent kind := by
  intro c a c' hc h
  cases h
  exact ⟨hc, le_rfl⟩

theorem silent_nextKind : Silent nextKind := by
  intro c a c' hc h
  cases h
  exact ⟨hc, le_rfl⟩

theorem silent_pure (a : α) : Silent (pure a) := by
  intro c a c' hc h
  cases h
  exact ⟨hc, le_rfl⟩

theorem silent_take : Silent take := by
  intro c a c' hc h
  cases h
  exact ⟨hc.advance, hc.lastEnd_le_advance⟩

theorem silent_accept (k : TokenKind) : Silent (accept k) := by
  intro c a c' hc h
  rw [accept] at h
  split at h <;> cases h
  · exact ⟨hc.advance, hc.lastEnd_le_advance⟩
  · exact ⟨hc, le_rfl⟩

theorem silent_expect (k : TokenKind) (what : Expectation) : Silent (expect k what) := by
  intro c a c' hc h
  rw [expect] at h
  split at h
  · cases h
    exact ⟨hc.advance, hc.lastEnd_le_advance⟩
  · exact absurd h reject_ne_ok

/-- Rules that only pass over tokens do so one behind the other. -/
theorem Silent.bind {p : Parse α} {q : α → Parse β} (hp : Silent p) (hq : ∀ a, Silent (q a)) :
    Silent (p >>= q) := by
  intro c b c' hc hrun
  obtain ⟨a, middle, ha, hb⟩ := bind_eq_ok hrun
  obtain ⟨hmiddle, hle⟩ := hp hc ha
  obtain ⟨hc', hle'⟩ := hq a hmiddle hb
  exact ⟨hc', hle.trans hle'⟩

theorem silent_reject_bind {q : α → Parse β} : Silent (reject fault >>= q) := by
  intro c b c' _ hrun
  cases hrun

theorem Lays.silent {p : Parse α} {parts : α → List (Role × Node)} (h : Lays p parts) : Silent p :=
  fun _ _ _ hc hrun => (h hc hrun).imp id Arranged.le

theorem Silent.ite {P : Prop} [Decidable P] {p q : Parse α} (hp : Silent p) (hq : Silent q) :
    Silent (if P then p else q) := by
  split
  · exact hp
  · exact hq

section Steps

variable {p : Parse α} {q : α → Parse β} {parts : α → List (Role × Node)} {Q : β → Position → Prop}

/-- The parts that a rule lays out are arranged behind those before it. -/
theorem Follows.bind (hp : Lays p parts) (hq : ∀ a, Follows lo (nodes ++ parts a) (q a) Q) :
    Follows lo nodes (p >>= q) Q := by
  intro c b c' hc hnodes hrun
  obtain ⟨a, middle, ha, hb⟩ := bind_eq_ok hrun
  obtain ⟨hmiddle, hparts⟩ := hp hc ha
  exact hq a hmiddle (hnodes.append hparts) hb

theorem Follows.silent (hp : Silent p) (hq : ∀ a, Follows lo nodes (q a) Q) :
    Follows lo nodes (p >>= q) Q := by
  intro c b c' hc hnodes hrun
  obtain ⟨a, middle, ha, hb⟩ := bind_eq_ok hrun
  obtain ⟨hmiddle, hle⟩ := hp hc ha
  exact hq a hmiddle (hnodes.mono le_rfl hle) hb

/-- Running a rule that has been followed. -/
theorem Follows.run {start : Position} (hc : c.Ordered)
    (hnodes : Arranged lo nodes c.lastEnd) (hrun : r c = .ok (n, c'))
    (h : Follows lo nodes r (ReadAs role start)) : c'.Ordered ∧ ReadAs role start n c'.lastEnd :=
  h hc hnodes hrun

/-- A step that rearranges the nodes. -/
theorem Follows.then {lo' : Position} {nodes' : α → List (Role × Node)}
    (hp : Follows lo nodes p fun a hi => Arranged lo' (nodes' a) hi)
    (hq : ∀ a, Follows lo' (nodes' a) (q a) Q) : Follows lo nodes (p >>= q) Q := by
  intro c b c' hc hnodes hrun
  obtain ⟨a, middle, ha, hb⟩ := bind_eq_ok hrun
  obtain ⟨hmiddle, hparts⟩ := hp hc hnodes ha
  exact hq a hmiddle hparts hb

/-- A result is as wanted wherever the parts so far are arranged. -/
theorem Follows.pure {b : β} (h : ∀ hi, Arranged lo nodes hi → Q b hi) :
    Follows lo nodes (Pure.pure b) Q := by
  intro c b c' hc hnodes hrun
  cases hrun
  exact ⟨hc, h _ hnodes⟩

theorem Follows.pure_bind {a : α} (h : Follows lo nodes (q a) Q) :
    Follows lo nodes (Pure.pure a >>= q) Q :=
  fun _ _ _ hc hnodes hrun => h hc hnodes hrun

/-- The span of a result ends with the last token. -/
theorem Follows.span {start : Position} {f : Span → β}
    (h : ∀ hi, Arranged lo nodes hi → Q (f ⟨start, hi⟩) hi) :
    Follows lo nodes (spanFrom start >>= fun span => Pure.pure (f span)) Q := by
  intro c b c' hc hnodes hrun
  cases hrun
  exact ⟨hc, h _ hnodes⟩

theorem Follows.reject : Follows lo nodes (Parse.reject fault : Parse β) Q :=
  fun _ _ _ _ _ hrun => absurd hrun reject_ne_ok

theorem Follows.reject_bind : Follows lo nodes (Parse.reject fault >>= q) Q := by
  intro c b c' hc hnodes hrun
  obtain ⟨a, middle, ha, -⟩ := bind_eq_ok hrun
  exact absurd ha reject_ne_ok

theorem Follows.ite {P : Prop} [Decidable P] {r s : Parse β} (hr : Follows lo nodes r Q)
    (hs : Follows lo nodes s Q) : Follows lo nodes (if P then r else s) Q := by
  split
  · exact hr
  · exact hs

theorem Follows.expect {what : Expectation} {f : Token → Parse β}
    (h : ∀ t, Follows lo nodes (f t) Q) : Follows lo nodes (Parse.expect k what >>= f) Q :=
  .silent (silent_expect k what) h

theorem Follows.accept_ite {C : Bool → Prop} [DecidablePred C] {r s : Parse β}
    (hr : Follows lo nodes r Q) (hs : Follows lo nodes s Q) :
    Follows lo nodes (accept k >>= fun accepted => if C accepted then r else s) Q :=
  .silent (silent_accept k) fun _ => .ite hr hs

theorem Follows.kind_ite {C : TokenKind → Prop} [DecidablePred C] {r s : Parse β}
    (hr : Follows lo nodes r Q) (hs : Follows lo nodes s Q) :
    Follows lo nodes (kind >>= fun k => if C k then r else s) Q :=
  .silent silent_kind fun _ => .ite hr hs

/-- Nodes may be put in the place of others. -/
theorem Follows.replace {nodes' : List (Role × Node)} {r : Parse β}
    (hreplaces : List.Forall₂ Replaces nodes nodes') (h : Follows lo nodes' r Q) :
    Follows lo nodes r Q :=
  fun _ _ _ hc hnodes hrun => h hc (hnodes.replace hreplaces) hrun

theorem Follows.mono {r : Parse β} {R : β → Position → Prop} (h : Follows lo nodes r Q)
    (hQ : ∀ b hi, Q b hi → R b hi) : Follows lo nodes r R := by
  intro c b c' hc hnodes hrun
  obtain ⟨hc', hb⟩ := h hc hnodes hrun
  exact ⟨hc', hQ b _ hb⟩

theorem spans_of_follows {r : Parse β} {S : Position → β → Position → Prop}
    (h : ∀ lo, Follows lo [] r (S lo)) : Spans r S :=
  fun c _ _ hc hrun => h c.lastEnd hc (.nil le_rfl) hrun

/-- What a rule lays is found by following it from the end of the last token on. -/
theorem lays_of_follows {r : Parse β} {parts : β → List (Role × Node)}
    (h : ∀ lo, Follows lo [] r fun b hi => Arranged lo (parts b) hi) : Lays r parts :=
  fun c _ _ hc hrun => h c.lastEnd hc (.nil le_rfl) hrun

theorem lays_some (h : Lays r fun n => [(role, n)]) :
    Lays (some <$> r) fun o => o.toList.map (role, ·) := by
  intro c o c' hc hrun
  rw [← bind_pure_comp] at hrun
  obtain ⟨n, middle, hn, hresult⟩ := bind_eq_ok hrun
  cases hresult
  exact h hc hn

theorem Lays.bind {parts' : β → List (Role × Node)} (hp : Lays p parts)
    (hq : ∀ a lo, Follows lo (parts a) (q a) fun b hi => Arranged lo (parts' b) hi) :
    Lays (p >>= q) parts' :=
  lays_of_follows fun lo => Follows.bind hp fun a => hq a lo

/-- A rule that is the last step. -/
theorem Lays.follows (hp : Lays p parts) :
    Follows lo nodes p fun a hi => Arranged lo (nodes ++ parts a) hi := by
  intro c a c' hc hnodes hrun
  obtain ⟨hc', ha⟩ := hp hc hrun
  exact ⟨hc', hnodes.append ha⟩

end Steps

section Repetition

variable {S : Position → α → Position → Prop} {step : Parse (Option α)}
  {parts : α → List (Role × Node)}

/-- A repetition gives the results of its steps one after the other. -/
theorem manyWithin_spans (h : Spans step fun lo o hi => o.elim (lo ≤ hi) fun a => S lo a hi)
    (bound : Nat) :
    Spans (manyWithin step bound) (Linked S) := by
  induction bound with
  | zero => exact fun c as c' _ hrun => absurd hrun reject_ne_ok
  | succ bound ih =>
    intro c as c' hc hrun
    obtain ⟨o, middle, ho, hrest⟩ := bind_eq_ok hrun
    obtain ⟨hmiddle, hS⟩ := h hc ho
    cases o with
    | none =>
      cases hrest
      exact ⟨hmiddle, hS⟩
    | some a =>
      obtain ⟨rest, last, hmore, hresult⟩ := bind_eq_ok hrest
      cases hresult
      obtain ⟨hc', hlinked⟩ := ih hmiddle hmore
      exact ⟨hc', _, hS, hlinked⟩

theorem many_spans (h : Spans step fun lo o hi => o.elim (lo ≤ hi) fun a => S lo a hi) :
    Spans (many step) (Linked S) :=
  fun c _ _ hc hrun => manyWithin_spans h (c.ahead + 1) hc hrun

/-- Rounds that lay out parts lay them out one after the other. -/
theorem lays_many (h : Lays step fun o => o.toList.flatMap parts) :
    Lays (many step) fun as => as.flatMap parts := by
  intro c as c' hc hrun
  refine (many_spans (S := fun lo a hi => Arranged lo (parts a) hi) ?_ hc hrun).imp id
    Linked.arranged
  intro c o c' hc hrun
  obtain ⟨hc', ho⟩ := h hc hrun
  cases o with
  | none => exact ⟨hc', ho.le⟩
  | some a => exact ⟨hc', by simpa using ho⟩

theorem lays_nodes (role : Role) {step : Parse (Option Node)}
    (h : Lays step fun o => o.toList.map (role, ·)) :
    Lays (many step) fun ns => ns.map (role, ·) := by
  have hmany : Lays (many step) fun ns => ns.flatMap fun n => [(role, n)] :=
    lays_many (by simpa using h)
  simpa using hmany

/-- Things that each begin with a token of a known kind. -/
theorem many_at_spans (hk : k.isLayout = false) {p : Parse α}
    (h : ∀ ⦃c a c'⦄, c.Ordered → c.current.kind.isLayout = false → p c = .ok (a, c') →
      c'.Ordered ∧ S c.lastEnd a c'.lastEnd) :
    Spans (many (kind >>= fun found => if found == k then p >>= fun a => pure (some a)
      else pure none)) (Linked S) := by
  refine many_spans fun c o c' hc hrun => ?_
  rw [kind_bind] at hrun
  split at hrun
  · next hkind =>
    obtain ⟨a, middle, ha, hrun⟩ := bind_eq_ok hrun
    cases hrun
    exact h hc (by rw [beq_iff_eq.mp hkind, hk]) ha
  · cases hrun
    exact ⟨hc, le_rfl⟩

variable {element : Parse α} {goesOn : TokenKind → Bool}

theorem lays_behind (wanted : TokenKind) (h : Lays element parts) :
    Lays (behind wanted element) fun o => o.toList.flatMap parts := by
  refine lays_of_follows fun lo => .accept_ite ?_ ?_
  · exact .bind h fun a => .pure fun hi ha => by simpa using ha
  · exact .pure fun hi ha => ha

theorem lays_afterCommas (h : Lays element parts) :
    Lays (afterCommas goesOn element) fun as => as.flatMap parts := by
  refine lays_many (lays_of_follows fun lo => .accept_ite ?_ ?_)
  · exact .pure fun hi ha => ha
  · refine .kind_ite ?_ ?_
    · exact .pure fun hi ha => ha
    · exact .bind h fun a => .pure fun hi ha => by simpa using ha

theorem lays_betweenCommas (h : Lays element parts) :
    Lays (betweenCommas goesOn element) fun as => as.flatMap parts := by
  refine lays_of_follows fun lo => .kind_ite ?_ ?_
  · exact .pure fun hi ha => ha
  · refine .bind h fun first => .bind (lays_afterCommas h) fun more => .pure fun hi ha => ?_
    simpa using ha

theorem silent_manyWithin (h : Silent step) (bound : Nat) : Silent (manyWithin step bound) := by
  intro c as c' hc hrun
  refine (manyWithin_spans (S := fun lo _ hi => lo ≤ hi) ?_ bound hc hrun).imp id Linked.le
  intro c o c' hc hrun
  obtain ⟨hc', hle⟩ := h hc hrun
  cases o <;> exact ⟨hc', hle⟩

theorem silent_many (h : Silent step) : Silent (many step) :=
  fun c _ _ hc hrun => silent_manyWithin h (c.ahead + 1) hc hrun

/-- A repetition whose first step gives something takes at least what that step takes. -/
theorem many_le_of_some (h : Silent step) {c middle c' : Cursor} {a : α} {as : List α}
    (hc : middle.Ordered) (ha : step c = .ok (some a, middle)) (hrun : many step c = .ok (as, c')) :
    c'.Ordered ∧ middle.lastEnd ≤ c'.lastEnd := by
  rw [many, manyWithin, bind_of_ok ha] at hrun
  obtain ⟨rest, last, hmore, hresult⟩ := bind_eq_ok hrun
  cases hresult
  exact silent_manyWithin h c.ahead hc hmore

end Repetition

section Opens

variable {p : Parse Node} {q : Node → Parse Node}

theorem Opens.lays (h : Opens role p) : Lays p fun n => [(role, n)] := by
  intro c n c' hc hrun
  obtain ⟨hc', hvisible, hn⟩ := h hc hrun
  exact ⟨hc', hn.mono (hc.current_of_visible hvisible).1 le_rfl⟩

/-- What follows an expression stays with it. -/
theorem Opens.bind (h : Opens .expression p)
    (hq : ∀ n, Follows n.start [(.expression, n)] (q n) (ReadAs role n.start)) :
    Opens role (p >>= q) := by
  intro c m c' hc hrun
  obtain ⟨n, middle, hn, hm⟩ := bind_eq_ok hrun
  obtain ⟨hmiddle, hvisible, hstands⟩ := h hc hn
  obtain ⟨hc', hresult⟩ := hq n hmiddle (hstands.focus rfl) hm
  exact ⟨hc', hvisible, hresult.mono hstands.le_start le_rfl⟩

theorem opens_reject : Opens role (reject fault) :=
  fun _ _ _ _ hrun => absurd hrun reject_ne_ok

/-- The node of an identifier token covers the token. -/
theorem arranged_toName {t : Token} (h : t.start < t.stop)
    (hsuits : role.Suits usage (.name t.text)) :
    ReadAs role t.start (t.toName usage) t.stop :=
  Arranged.node (.nil h.le) (.refl _) le_rfl h rfl hsuits rfl nofun

/-- A rule that begins at a visible token reads its node from there. -/
theorem Begins.opens (h : Begins role p) (hc : c.Ordered)
    (hvisible : c.current.kind.isLayout = false) (hrun : p c = .ok (n, c')) :
    c'.Ordered ∧ c.current.kind.isLayout = false ∧ ReadAs role c.current.start n c'.lastEnd := by
  obtain ⟨hc', hn⟩ := h hc hvisible hrun
  exact ⟨hc', hvisible, hn⟩

/-- A node that begins with a token that has been taken. -/
theorem taken_begins (hc : c.Ordered)
    (hvisible : c.current.kind.isLayout = false)
    (h : c.current.start < c.current.stop →
      Follows c.current.stop [] r (ReadAs role c.current.start))
    (hrun : r c.advance = .ok (n, c')) : c'.Ordered ∧ ReadAs role c.current.start n c'.lastEnd := by
  obtain ⟨-, hlt, -⟩ := hc.current_of_visible hvisible
  exact h hlt hc.advance (.nil (Cursor.Ordered.lastEnd_advance_of_visible hvisible).ge) hrun

theorem taken_opens (hc : c.Ordered)
    (hvisible : c.current.kind.isLayout = false)
    (h : c.current.start < c.current.stop →
    Follows c.current.stop [] r (ReadAs role c.current.start)) (hrun : r c.advance = .ok (n, c')) :
    c'.Ordered ∧ c.current.kind.isLayout = false ∧ ReadAs role c.current.start n c'.lastEnd := by
  obtain ⟨hc', hn⟩ := taken_begins hc hvisible h hrun
  exact ⟨hc', hvisible, hn⟩

/-- Nodes that each begin with a token of a known kind. -/
theorem lays_many_at (hk : k.isLayout = false) (h : Begins role p) :
    Lays (many (kind >>= fun found => if found == k then p >>= fun n => pure (some n)
      else pure none)) fun ns =>
      ns.map (role, ·) := by
  intro c ns c' hc hrun
  have hbehind ⦃c n c'⦄ (hc : c.Ordered) (hvisible : c.current.kind.isLayout = false)
      (hrun : p c = .ok (n, c')) : c'.Ordered ∧ ReadAs role c.lastEnd n c'.lastEnd :=
    (h hc hvisible hrun).imp id fun hn => hn.mono (hc.current_of_visible hvisible).1 le_rfl
  obtain ⟨hc', hlinked⟩ := many_at_spans (S := ReadAs role) hk hbehind hc hrun
  have harranged : Arranged c.lastEnd (ns.flatMap fun n => [(role, n)]) c'.lastEnd :=
    hlinked.arranged
  exact ⟨hc', by simpa using harranged⟩

/-- A rule that takes a token begins its node at that token. -/
theorem begins_take {f : Token → Parse Node}
    (h : ∀ t : Token, t.start < t.stop → Follows t.stop [] (f t) (ReadAs role t.start)) :
    Begins role (take >>= f) := by
  intro c n c' hc hvisible hrun
  rw [take_bind] at hrun
  exact taken_begins hc hvisible (h c.current) hrun

/-- A node whose first part is a name. -/
theorem begins_name {f : Token → Parse Node} (part : Role)
    (hsuits : ∀ id, part.Suits usage (.name id))
    (h : ∀ t : Token, Follows t.start [(part, t.toName usage)] (f t) (ReadAs role t.start)) :
    Begins role (take >>= f) := by
  intro c n c' hc hvisible hrun
  obtain ⟨-, hlt, -⟩ := hc.current_of_visible hvisible
  rw [take_bind] at hrun
  refine h c.current hc.advance ?_ hrun
  rw [Cursor.Ordered.lastEnd_advance_of_visible hvisible]
  exact arranged_toName hlt (hsuits _)

/-- The rule reads a node from a current token of the given kind on. -/
def OpensAt (k : TokenKind) (role : Role) (p : Parse Node) : Prop :=
  ∀ ⦃c n c'⦄, c.Ordered → c.current.kind = k → p c = .ok (n, c') →
    c'.Ordered ∧ c.current.kind.isLayout = false ∧ ReadAs role c.current.start n c'.lastEnd

theorem Begins.at (h : Begins role p) (hk : k.isLayout = false) : OpensAt k role p :=
  fun _ _ _ hc hkind hrun => h.opens hc (by rw [hkind, hk]) hrun

theorem Opens.at (h : Opens role p) : OpensAt k role p := fun _ _ _ hc _ hrun => h hc hrun

/-- The current token decides which rule is used. -/
theorem opens_kind {f : TokenKind → Parse Node} (h : ∀ k, OpensAt k role (f k)) :
    Opens role (kind >>= f) :=
  fun c _ _ hc hrun => h c.current.kind hc rfl hrun

/-- A current token of a known kind decides between two rules. -/
theorem opens_kind_ite (hk : k.isLayout = false) (hp : Begins role p)
    (hr : Opens role r) : Opens role (kind >>= fun found => if found == k then p else r) := by
  intro c n c' hc hrun
  rw [kind_bind] at hrun
  split at hrun
  · next hkind => exact hp.opens hc (by rw [beq_iff_eq.mp hkind, hk]) hrun
  · exact hr hc hrun

/-- The nodes of a list as statements. -/
abbrev stmts (ns : List Node) : List (Role × Node) := ns.map (.statement, ·)

/-- The rule reads statements behind what was read before, provided that the current token is of the
given kind. -/
def LaysAt (k : TokenKind) (p : Parse (List Node)) : Prop :=
  ∀ ⦃c ns c'⦄, c.Ordered → c.current.kind = k → p c = .ok (ns, c') →
    c'.Ordered ∧ Arranged c.lastEnd (stmts ns) c'.lastEnd

theorem Lays.at {p : Parse (List Node)} (h : Lays p stmts) : LaysAt k p :=
  fun _ _ _ hc _ hrun => h hc hrun

theorem lays_kind {f : TokenKind → Parse (List Node)} (h : ∀ k, LaysAt k (f k)) :
    Lays (kind >>= f) stmts :=
  fun c _ _ hc hrun => h c.current.kind hc rfl hrun

theorem laysAt_nextKind {f : TokenKind → Parse (List Node)} (h : ∀ next, LaysAt k (f next)) :
    LaysAt k (nextKind >>= f) :=
  fun _ _ _ hc hkind hrun => h _ hc hkind hrun

theorem Begins.alone (h : Begins .statement p) (hk : k.isLayout = false) :
    LaysAt k (do return [← p]) := by
  intro c ns c' hc hkind hrun
  obtain ⟨n, middle, hn, hrun⟩ := bind_eq_ok hrun
  cases hrun
  have hvisible : c.current.kind.isLayout = false := by rw [hkind, hk]
  obtain ⟨hmiddle, hstands⟩ := h hc hvisible hn
  exact ⟨hmiddle, hstands.mono (hc.current_of_visible hvisible).1 le_rfl⟩

theorem Lays.alone (h : Lays p fun n => [(.statement, n)]) : LaysAt k (do return [← p]) :=
  (h.bind fun _ _ => .pure fun _ hn => hn).at

end Opens

section Steps

variable {p : Parse α} {q : Node → Parse β} {Q : β → Position → Prop}

/-- Behind a single plain node it is enough to know where that node begins. -/
theorem Follows.focus {r : Parse β} (hrole : (role != .statement) = true)
    (h : lo ≤ n.start → Follows n.start [(role, n)] r Q) : Follows lo [(role, n)] r Q :=
  fun _ _ _ hc hn hrun => h hn.le_start hc (hn.focus hrole) hrun

/-- A node that is read from a token of a known kind on. -/
theorem Follows.kind_begins (hk : k.isLayout = false) {p : Parse Node} {r : Parse β}
    (hp : Begins role p) (hq : ∀ n, Follows lo (nodes ++ [(role, n)]) (q n) Q)
    (hr : Follows lo nodes r Q) :
    Follows lo nodes (kind >>= fun found => if found == k then p >>= q else r) Q := by
  intro c b c' hc hnodes hrun
  rw [kind_bind] at hrun
  split at hrun
  · next hkind =>
    have hvisible : c.current.kind.isLayout = false := by rw [beq_iff_eq.mp hkind, hk]
    obtain ⟨n, middle, hn, hrun⟩ := bind_eq_ok hrun
    obtain ⟨hmiddle, hstands⟩ := hp hc hvisible hn
    have hle := (hc.current_of_visible hvisible).1
    exact hq n hmiddle (hnodes.append (hstands.mono hle le_rfl)) hrun
  · exact hr hc hnodes hrun

/-- What follows a token that is taken if it is of a known kind. -/
theorem Follows.token_accept (hk : k.isLayout = false) {f : Token → Bool → Parse β}
    (htrue : ∀ t : Token, lo ≤ t.start → t.start < t.stop → Follows t.stop [] (f t true) Q)
    (hfalse : ∀ t, Follows lo [] (f t false) Q) :
    Follows lo [] (token >>= fun t => accept k >>= f t) Q := by
  intro c b c' hc hnodes hrun
  rw [token_bind] at hrun
  rcases accept_bind_eq_ok hrun with ⟨hkind, hrun⟩ | ⟨-, hrun⟩
  · have hvisible : c.current.kind.isLayout = false := by rw [hkind, hk]
    obtain ⟨hle, hlt, -⟩ := hc.current_of_visible hvisible
    refine htrue c.current (hnodes.le.trans hle) hlt hc.advance (.nil ?_) hrun
    exact (Cursor.Ordered.lastEnd_advance_of_visible hvisible).ge
  · exact hfalse c.current hc hnodes hrun

end Steps

/-- An identifier that has to come next. -/
theorem lays_name {what : Expectation} (hsuits : ∀ id, role.Suits usage (.name id)) :
    Lays (expect .ident what) fun t => [(role, t.toName usage)] := by
  intro c t c' hc hrun
  rw [expect] at hrun
  split at hrun
  · next hkind =>
    cases hrun
    have hvisible : c.current.kind.isLayout = false := by rw [beq_iff_eq.mp hkind]; rfl
    obtain ⟨hle, hlt, -⟩ := hc.current_of_visible hvisible
    refine ⟨hc.advance, ?_⟩
    rw [Cursor.Ordered.lastEnd_advance_of_visible hvisible]
    exact (arranged_toName hlt (hsuits _)).mono hle le_rfl
  · exact absurd hrun reject_ne_ok

end Parse

end NameInference

import NameInference.Proofs.Expression.Primary

/-!
# Reading the levels of the grammar

Each rule of the grammar reads an expression back at its place, given that the rule for the next
tighter place does and that the nested rules read what is shorter. Operators of one level that stand
side by side are gathered to the left; Boolean operators and comparisons are gathered into one node.
The rules are then closed by induction on the depth of nesting.
-/

namespace NameInference

open Cursor List NameInference.Expr Precedence

variable {p next : Precedence}

namespace Precedence

theorem rank_injective {p q : Precedence} (h : p.rank = q.rank) : p = q := by
  cases p <;> cases q <;> first | rfl | cases h

/-- The place of the right operands of a level whose operators are gathered to the left. -/
def rightOfChain? : Precedence → Option Precedence
  | bitOr => some bitXor
  | bitXor => some bitAnd
  | bitAnd => some shift
  | shift => some additive
  | additive => some multiplicative
  | multiplicative => some unary
  | _ => none

/-- The operators of such a level. -/
def operator? : Precedence → TokenKind → Option BinaryOp
  | bitOr => TokenKind.bitOr?
  | bitXor => TokenKind.bitXor?
  | bitAnd => TokenKind.bitAnd?
  | shift => TokenKind.shift?
  | additive => TokenKind.additive?
  | multiplicative => TokenKind.multiplicative?
  | _ => fun _ => none

theorem operator?_symbol (hnext : p.rightOfChain? = some next) {op : BinaryOp}
    (h : op.precedence = p) : p.operator? op.symbol.1 = some op := by
  subst h
  cases op <;> first | rfl | cases hnext

/-- No operator of a level stands where an expression of the level ends. -/
theorem operator?_eq_none {p : Precedence} {kind : TokenKind} (h : p.endsBefore kind = true) :
    p.operator? kind = none := by
  cases p <;> cases kind <;> first | rfl | cases h

theorem rank_rightOfChain (h : p.rightOfChain? = some next) : next.rank = p.rank + 1 := by
  cases p <;> cases h <;> rfl

/-- No symbol ends a power that does not end a signed operand. -/
theorem unary_endedBy {rest : List Symbol} (h : power.endedBy rest = true) :
    unary.endedBy rest = true := by
  obtain ⟨⟨kind, text⟩, more, rfl, hkind⟩ := exists_cons_of_endedBy h
  cases kind <;> first | rfl | cases hkind

end Precedence

/-- An expression that is not of a level stands there as it does at the next tighter one. -/
theorem Expr.symbols_eq_of_ne {e : Expr} (hne : e.precedence ≠ p)
    (hnext : next.rank = p.rank + 1) : e.symbols p = e.symbols next := by
  have hrank : e.precedence.rank ≠ p.rank := fun h => hne (rank_injective h)
  have hsame : e.precedence.looser p = e.precedence.looser next := by
    simp only [Precedence.looser, decide_eq_decide]
    omega
  rw [symbols_eq, symbols_eq, hsame]

theorem Expr.symbols_of_eq {e : Expr} {p : Precedence} (h : e.precedence = p) :
    e.symbols p = e.bare := by
  rw [symbols_eq, h, Precedence.looser, if_neg (by simp)]

namespace Grammar

open Parse

variable {inner : Inner} {size : Nat} {c : Cursor} {e : Expr} {p next : Precedence}
  {rest : List Symbol}

/-- Unless something is awaited, a power begins with a primary. -/
theorem power_of_primary {n : Node} {c' : Cursor} (hawait : c.current.kind ≠ .kwAwait)
    (h : primary inner c = .ok (n, c')) :
    power inner c = (do
      if ← accept .starStar then
        let exponent ← inner .factor
        node n.start (.binary .pow n exponent)
      else return n : Parse Node) c' := by
  obtain ⟨base, middle, hbase, h⟩ := bind_eq_ok h
  obtain ⟨trailers, last, htrailers, h⟩ := bind_eq_ok h
  obtain ⟨rfl, rfl⟩ : withTrailers base trailers = n ∧ last = c' := by simpa [pure_eq] using h
  rw [power, start_bind, accept_bind_of_ne hawait, bind_of_ok hbase, bind_of_ok htrailers,
    if_neg Bool.false_ne_true]
  rfl

theorem length_symbols_pos {place : Precedence} : 0 < (e.symbols place).length := by
  obtain ⟨x, tail, hx, -⟩ := e.exists_head place
  rw [hx]
  exact Nat.succ_pos _

/-- Behind an operator its right operand comes. -/
theorem symbols_behind {s : Symbol} {place : Precedence}
    (hc : c.symbols = s :: e.symbols place ++ rest) :
    c.advance.symbols = e.symbols place ++ rest := by
  obtain ⟨x, tail, hx, -⟩ := e.exists_head place
  rw [hx] at hc ⊢
  exact symbols_advance hc

theorem power_reads (hinner : ReadsWithin inner size) :
    ReadsShort (power inner) .power (size + 1) := by
  intro e hsize c rest hc hrest
  have hawait : c.current.kind ≠ .kwAwait := kind_ne_of_start hc rfl
  by_cases hpower : e.precedence = .power
  · obtain ⟨l, r, rfl⟩ : ∃ l r, e = .binary .pow l r := by
      cases e with
      | binary op l r => cases op <;> first | exact ⟨l, r, rfl⟩ | cases hpower
      | unary op | boolean op => cases op <;> cases hpower
      | _ => cases hpower
    rw [symbols_of_eq hpower, bare_binary] at hc hsize
    simp only [length_append, length_cons] at hsize
    rw [append_assoc] at hc
    obtain ⟨m, middle, hrun, hmiddle, hm⟩ :=
      primary_reads hinner l (Nat.le_trans (Nat.le_add_right _ _) hsize) c _ hc rfl
    have hstars : middle.current.kind = .starStar := current_kind hmiddle
    have hright : middle.advance.symbols = r.symbols .unary ++ rest := symbols_behind hmiddle
    have hexponent : ReadsAt (inner .factor) .unary r := hinner .factor r (Nat.le_of_lt_succ (by
      have : 0 < (l.symbols .primary).length := length_symbols_pos
      simp only [Level.place, BinaryOp.leftPlace, BinaryOp.rightPlace, if_pos] at hsize ⊢
      omega))
    obtain ⟨n, c', hexp, hc', hn⟩ := hexponent middle.advance rest hright (unary_endedBy hrest)
    refine ⟨.mk ⟨m.start, c'.lastEnd⟩ .load (.binary .pow m n), c', ?_, hc', .binary hm hn⟩
    rw [power_of_primary hawait hrun, accept_ite_of_eq hstars, bind_of_ok hexp]
    rfl
  · have hsymbols : e.symbols .power = e.symbols .primary := symbols_eq_of_ne hpower rfl
    obtain ⟨n, c', hrun, hc', hn⟩ :=
      primary_reads hinner e (hsymbols ▸ hsize) c rest (hsymbols ▸ hc)
      (endedBy_of_le hrest (by decide))
    have hstars : c'.current.kind ≠ .starStar := kind_ne_of_end (hc' ▸ hrest) rfl
    refine ⟨n, c', ?_, hc', hn⟩
    rw [power_of_primary hawait hrun, accept_bind_of_ne hstars]
    rfl

/-- Signs before a power. -/
theorem factor_reads (hinner : ReadsWithin inner size) :
    ReadsShort (factor inner) .unary (size + 1) := by
  intro e hsize c rest hc hrest
  by_cases hunary : e.precedence = .unary
  · obtain ⟨op, x, rfl, hop, hsign⟩ : ∃ op x, e = .unary op x ∧ op.precedence = .unary ∧
        TokenKind.sign? op.symbol.1 = some op := by
      cases e with
      | unary op x => cases op <;> first | exact ⟨_, x, rfl, rfl, rfl⟩ | cases hunary
      | binary op | boolean op => cases op <;> cases hunary
      | _ => cases hunary
    rw [symbols_of_eq hunary, bare_unary, hop] at hc hsize
    have hkind : c.current.kind = op.symbol.1 := current_kind hc
    obtain ⟨n, c', hrun, hc', hn⟩ := hinner .factor x (Nat.le_of_succ_le_succ hsize) c.advance rest
      (symbols_behind hc) hrest
    refine ⟨.mk ⟨c.current.start, c'.lastEnd⟩ .load (.unary op n), c', ?_, hc', .unary hn⟩
    rw [factor, start_bind, kind_bind, hkind, hsign]
    simp only
    rw [take_bind, bind_of_ok hrun]
    rfl
  · have hsymbols : e.symbols .unary = e.symbols .power := symbols_eq_of_ne hunary rfl
    rw [hsymbols] at hc
    have hsign : c.current.kind.sign? = none := by
      have hstart := startsWith_current hc
      generalize c.current.kind = kind at hstart
      cases kind <;> first | rfl | cases hstart
    obtain ⟨n, c', hrun, hc', hn⟩ := power_reads hinner e (hsymbols ▸ hsize) c rest hc
      (endedBy_of_le hrest (by decide))
    refine ⟨n, c', ?_, hc', hn⟩
    rw [factor, start_bind, kind_bind, hsign]
    exact hrun

/-- At its level an expression is a first operand with operators of the level and their right
operands behind it. -/
def Chained (p next : Precedence) (e : Expr) : Prop :=
  ∃ (first : Expr) (items : List (BinaryOp × Expr)),
    e.symbols p = first.symbols next ++ items.flatMap (fun x => x.1.symbol :: x.2.symbols next) ∧
    e = items.foldl (fun l x => .binary x.1 l x.2) first ∧ ∀ x ∈ items, x.1.precedence = p

theorem chained_of_ne (h : e.precedence ≠ p) (hnext : next.rank = p.rank + 1) : Chained p next e :=
  ⟨e, [], by simp [symbols_eq_of_ne h hnext], rfl, by simp⟩

theorem Chained.binary {l : Expr} (h : Chained p next l) {op : BinaryOp} (hop : op.precedence = p)
    (hleft : op.leftPlace = p) (hright : op.rightPlace = next) (r : Expr) :
    Chained p next (.binary op l r) := by
  obtain ⟨first, items, hl, hfold, hitems⟩ := h
  have hbinary : (Expr.binary op l r).precedence = p := hop
  refine ⟨first, items ++ [(op, r)], ?_, by simp [← hfold], ?_⟩
  · rw [symbols_of_eq hbinary, bare_binary, hleft, hright, hl]
    simp
  · intro x hx
    rcases mem_append.mp hx with hx | hx
    · exact hitems x hx
    · rw [mem_singleton.mp hx]
      exact hop

/-- Every expression is a chain at each level whose operators are gathered to the left. -/
theorem chained (hnext : p.rightOfChain? = some next) (e : Expr) : Chained p next e := by
  have hrank := rank_rightOfChain hnext
  induction e with
  | binary op l r ihl ihr =>
    by_cases hop : op.precedence = p
    · have hplaces : op.leftPlace = p ∧ op.rightPlace = next := by
        subst hop
        cases op <;> cases hnext <;> exact ⟨rfl, rfl⟩
      exact ihl.binary hop hplaces.1 hplaces.2 r
    · exact chained_of_ne hop hrank
  | unary op e ih => exact chained_of_ne (by rintro rfl; cases op <;> cases hnext) hrank
  | boolean op first second more =>
    exact chained_of_ne (by rintro rfl; cases op <;> cases hnext) hrank
  | name | int | compare | conditional | attr | call | subscript =>
    exact chained_of_ne (by rintro rfl; cases hnext) hrank

/-- A chain repeats a step that takes an operator and its right operand. -/
private theorem chain_eq (operator? : TokenKind → Option BinaryOp) (operand : Parse Node) :
    ∃ step : Parse (Option (BinaryOp × Node × Position)),
      chain operator? operand = (operand >>= fun first => many step >>= fun more =>
        pure (more.foldl (fun left x => .mk ⟨left.start, x.2.2⟩ .load (.binary x.1 left x.2.1))
        first)) ∧ (∀ c, operator? c.current.kind = none → step c = .ok (none, c)) ∧
      ∀ c op n c', operator? c.current.kind = some op → operand c.advance = .ok (n, c') →
        step c = .ok (some (op, n, c'.lastEnd), c') := by
  refine ⟨_, rfl, fun c h => ?_, fun c op n c' h hrun => ?_⟩
  · rw [kind_bind, h]
    rfl
  · rw [kind_bind, h]
    simp only
    rw [take_bind, bind_of_ok hrun]
    rfl

/-- Nodes gathered to the left have the shape of the expression gathered to the left. -/
private theorem foldl_shapes {items : List (BinaryOp × Expr)}
    {found : List (BinaryOp × Node × Position)} {n : Node} (hn : e.Shapes n)
    (h : List.Forall₂ (fun x a => a.1 = x.1 ∧ x.2.Shapes a.2.1) items found) :
    (items.foldl (fun l x => .binary x.1 l x.2) e).Shapes
      (found.foldl (fun left x => .mk ⟨left.start, x.2.2⟩ .load (.binary x.1 left x.2.1)) n) := by
  induction h generalizing e n with
  | nil => exact hn
  | @cons x a _ _ h _ ih =>
    refine ih ?_
    simp only [h.1]
    exact .binary hn h.2

/-- The rule for a level of binary operators reads an expression back at that level. -/
theorem chain_reads {operand : Parse Node} (hnext : p.rightOfChain? = some next)
    (hoperand : ReadsShort operand next (size + 1)) :
    ReadsShort (chain p.operator? operand) p (size + 1) := by
  intro e hsize
  obtain ⟨first, items, hsymbols, rfl, hitems⟩ := chained hnext e
  obtain ⟨step, hchain, hnone, hsome⟩ := chain_eq p.operator? operand
  have hrank := rank_rightOfChain hnext
  rw [hsymbols, length_append] at hsize
  rw [ReadsAt, hsymbols, hchain]
  refine Reads.many_behind next.endedBy rfl (fun c hc => ?_) (fun rest hrest => ?_)
    (hoperand first (by omega))
    (fun x hx c rest hc hrest => ?_) (fun x hx rest => ?_) (fun x _ => cons_ne_nil _ _)
    fun n found c hn hfound => ⟨_, rfl, foldl_shapes hn hfound⟩
  · obtain ⟨s, more, hs, hends⟩ := exists_cons_of_endedBy hc
    exact hnone c (operator?_eq_none (by rwa [current_kind hs]))
  · exact endedBy_of_le hrest (by omega)
  · have hlength := length_le_flatMap (f := fun x : BinaryOp × Expr =>
      x.1.symbol :: x.2.symbols next) hx
    simp only [length_cons] at hlength
    have hkind : p.operator? c.current.kind = some x.1 := by
      rw [current_kind hc]
      exact operator?_symbol hnext (hitems x hx)
    obtain ⟨n, c', hrun, hc', hn⟩ :=
      hoperand x.2 (by omega) c.advance rest (symbols_behind hc) hrest
    exact ⟨_, c', hsome c x.1 n c' hkind hrun, hc', _, rfl, rfl, hn⟩
  · have hop := hitems x hx
    subst hop
    cases hx : x.1 <;> rw [hx] at hnext <;> cases hnext <;> rfl

/-- A comparison operator is read back before an operand. -/
theorem comparisonOp_reads (op : CompareOp) :
    Reads comparisonOp op.symbols (fun rest => rest.head?.any fun s =>
      Precedence.bitOr.startsWith s.1) (· = some op) := by
  intro c rest hc hrest
  obtain ⟨y, more, rfl, hy⟩ :
      ∃ y more, rest = y :: more ∧ Precedence.bitOr.startsWith y.1 = true := by
    cases rest with
    | nil => cases hrest
    | cons y more => exact ⟨y, more, rfl, by simpa using hrest⟩
  have hone {kind : TokenKind} {text : Text} (hc : c.symbols = (kind, text) :: y :: more)
      (hop : kind.comparison? = some op) (his : op ≠ .is) :
      ∃ a c', comparisonOp c = .ok (a, c') ∧ c'.symbols = y :: more ∧ a = some op := by
    refine ⟨some op, c.advance, ?_, symbols_advance hc, rfl⟩
    rw [comparisonOp, kind_bind, current_kind hc, hop]
    cases op <;> first | rfl | exact absurd rfl his
  cases op with
  | eq | notEq | lt | le | gt | ge | «in» => exact hone hc rfl (by decide)
  | is =>
    have hkind : c.current.kind = .kwIs := current_kind hc
    have hin := symbols_advance hc
    have hnot : c.advance.current.kind ≠ .kwNot := by
      rw [current_kind hin]
      rintro hk
      rw [hk] at hy
      cases hy
    refine ⟨some .is, c.advance, ?_, hin, rfl⟩
    rw [comparisonOp, kind_bind, hkind]
    simp only [TokenKind.comparison?]
    rw [take_bind, accept_bind_of_ne hnot]
    rfl
  | isNot =>
    have hkind : c.current.kind = .kwIs := current_kind hc
    have hin : c.advance.symbols = _ := symbols_advance hc
    have hnot : c.advance.current.kind = .kwNot := current_kind hin
    refine ⟨some .isNot, c.advance.advance, ?_, symbols_advance hin, rfl⟩
    rw [comparisonOp, kind_bind, hkind]
    simp only [TokenKind.comparison?]
    rw [take_bind, accept_bind_of_eq hnot]
    rfl
  | notIn =>
    have hkind : c.current.kind = .kwNot := current_kind hc
    have hin : c.advance.symbols = _ := symbols_advance hc
    have hnext : (c.rest.headD c.current).kind = .kwIn := next_kind hc
    refine ⟨some .notIn, c.advance.advance, ?_, symbols_advance hin, rfl⟩
    rw [comparisonOp, kind_bind, hkind]
    simp only [TokenKind.comparison?]
    rw [nextKind_bind, hnext]
    rfl

/-- Behind a comparison that has ended no operator comes. -/
theorem comparisonOp_none (hc : Precedence.comparison.endedBy c.symbols = true) :
    comparisonOp c = .ok (none, c) := by
  obtain ⟨s, more, hs, hends⟩ := exists_cons_of_endedBy hc
  rw [← current_kind hs] at hends
  have hnot : (c.current.kind == .kwNot) = false := beq_eq_false_iff_ne.mpr (kind_ne_of_end hc rfl)
  have hnone : c.current.kind.comparison? = none := by
    generalize c.current.kind = kind at hends
    cases kind <;> first | rfl | cases hends
  rw [comparisonOp, kind_bind, hnone]
  simp only
  rw [nextKind_bind, hnot, Bool.false_and]
  rfl

/-- A comparison repeats a step that takes an operator and its right operand. -/
private theorem comparison_eq (inner : Inner) :
    ∃ step : Parse (Option (Comparison Node)),
      comparison inner = (bitwiseOr inner >>= fun left => many step >>= fun rest =>
        if rest.isEmpty then pure left else node left.start (.compare left rest)) ∧
      (∀ c, comparisonOp c = .ok (none, c) → step c = .ok (none, c)) ∧
      ∀ c op middle n c', comparisonOp c = .ok (some op, middle) → inner .bitwiseOr middle =
        .ok (n, c') → step c = .ok (some ⟨op, n⟩, c') := by
  refine ⟨_, rfl, fun c h => ?_, fun c op middle n c' h hrun => ?_⟩
  · rw [bind_of_ok h]
    rfl
  · rw [bind_of_ok h]
    simp only
    rw [bind_of_ok hrun]
    rfl

/-- An operand with comparisons behind it, or the operand itself. -/
def comparedWith (left : Expr) : List (CompareOp × Expr) → Expr
  | [] => left
  | (op, right) :: more => .compare left op right more

theorem exists_comparedWith (e : Expr) : ∃ (left : Expr) (items : List (CompareOp × Expr)),
    e.symbols .comparison =
      left.symbols .bitOr ++ items.flatMap (fun x => x.1.symbols ++ x.2.symbols .bitOr) ∧
    e = comparedWith left items := by
  by_cases h : e.precedence = .comparison
  · cases e with
    | compare left op right more =>
      exact ⟨left, (op, right) :: more, by rw [symbols_of_eq h, bare_compare], rfl⟩
    | unary op | binary op | boolean op => cases op <;> cases h
    | _ => cases h
  · exact ⟨e, [], by simp [symbols_eq_of_ne h (show Precedence.bitOr.rank = _ from rfl)], rfl⟩

/-- Comparisons that were found have the shape of the printed ones. -/
private theorem comparedWith_shapes {items : List (CompareOp × Expr)}
    {found : List (Comparison Node)} {n : Node} {span : Span} (hn : e.Shapes n)
    (hfound : found ≠ [])
    (h : List.Forall₂ (fun x a => a.op = x.1 ∧ x.2.Shapes a.operand) items found) :
    (comparedWith e items).Shapes (.mk span .load (.compare n found)) := by
  have hops : found.map (·.op) = items.map (·.1) := by
    clear hfound
    induction h with
    | nil => rfl
    | cons h _ ih => simp [h.1, ih]
  have hoperands : List.Forall₂ Expr.Shapes (items.map (·.2)) (found.map (·.operand)) := by
    rw [List.forall₂_map_left_iff, List.forall₂_map_right_iff]
    exact h.imp fun _ _ h => h.2
  cases items with
  | nil =>
    cases h
    exact absurd rfl hfound
  | cons x items => exact .compare hn hops hoperands

theorem comparison_reads (hinner : ReadsWithin inner size)
    (hoperand : ReadsShort (bitwiseOr inner) .bitOr (size + 1)) :
    ReadsShort (comparison inner) .comparison (size + 1) := by
  intro e hsize
  obtain ⟨left, items, hsymbols, rfl⟩ := exists_comparedWith e
  obtain ⟨step, hcomparison, hnone, hsome⟩ := comparison_eq inner
  rw [hsymbols, length_append] at hsize
  rw [ReadsAt, hsymbols, hcomparison]
  refine Reads.many_behind Precedence.bitOr.endedBy rfl
    (fun c hc => hnone c (comparisonOp_none hc)) (fun rest hrest => endedBy_of_le hrest (by decide))
    (hoperand left (by omega)) (fun x hx c rest hc hrest => ?_) (fun x _ rest => ?_) (fun x _ => ?_)
    fun n found c hn (hfound : List.Forall₂ (fun x a => a.op = x.1 ∧ x.2.Shapes a.operand) items
      found) => ?_
  · have hlength := length_le_flatMap (f := fun x : CompareOp × Expr =>
      x.1.symbols ++ x.2.symbols .bitOr) hx
    have hpos : 0 < (left.symbols .bitOr).length := length_symbols_pos
    simp only [length_append] at hlength
    obtain ⟨y, tail, hy, hstart⟩ := x.2.exists_head .bitOr
    rw [append_assoc] at hc
    obtain ⟨a, middle, hop, hmiddle, rfl⟩ :=
      comparisonOp_reads x.1 c _ hc (by rw [hy]; simpa using hstart)
    obtain ⟨n, c', hrun, hc', hn⟩ :=
      hinner .bitwiseOr x.2 (by rw [Level.place]; omega) middle rest hmiddle hrest
    exact ⟨_, c', hsome c x.1 middle n c' hop hrun, hc', _, rfl, rfl, hn⟩
  · obtain ⟨op, e⟩ := x
    cases op <;> rfl
  · obtain ⟨y, tail, hy, -⟩ := x.2.exists_head .bitOr
    simp [hy]
  · cases found with
    | nil =>
      cases hfound
      exact ⟨n, rfl, hn⟩
    | cons a found => exact ⟨_, rfl, comparedWith_shapes hn (cons_ne_nil _ _) hfound⟩

theorem notTest_reads (hinner : ReadsWithin inner size)
    (hcomparison : ReadsShort (comparison inner) .comparison (size + 1)) :
    ReadsShort (notTest inner) .notTest (size + 1) := by
  intro e hsize c rest hc hrest
  by_cases hnot : e.precedence = .notTest
  · obtain ⟨x, rfl⟩ : ∃ x, e = .unary .not x := by
      cases e with
      | unary op x => cases op <;> first | exact ⟨x, rfl⟩ | cases hnot
      | binary op | boolean op => cases op <;> cases hnot
      | _ => cases hnot
    rw [symbols_of_eq hnot, bare_unary] at hc hsize
    have hkind : c.current.kind = .kwNot := current_kind hc
    obtain ⟨n, c', hrun, hc', hn⟩ := hinner .notTest x (Nat.le_of_succ_le_succ hsize) c.advance rest
      (symbols_behind hc) hrest
    refine ⟨.mk ⟨c.current.start, c'.lastEnd⟩ .load (.unary .not n), c', ?_, hc', .unary hn⟩
    rw [notTest, start_bind, accept_ite_of_eq hkind, bind_of_ok hrun]
    rfl
  · have hsymbols : e.symbols .notTest = e.symbols .comparison := symbols_eq_of_ne hnot rfl
    rw [hsymbols] at hc
    have hkind : c.current.kind ≠ .kwNot := kind_ne_of_start hc rfl
    obtain ⟨n, c', hrun, hc', hn⟩ := hcomparison e (hsymbols ▸ hsize) c rest hc
      (endedBy_of_le hrest (by decide))
    refine ⟨n, c', ?_, hc', hn⟩
    rw [notTest, start_bind, accept_ite_of_ne hkind]
    exact hrun

/-- Operands joined by a Boolean operator, or the only operand itself. -/
def joinedBy (op : BoolOp) (first : Expr) : List Expr → Expr
  | [] => first
  | second :: more => .boolean op first second more

theorem exists_joinedBy (op : BoolOp) (e : Expr) : ∃ (first : Expr) (items : List Expr),
    e.symbols op.precedence = first.symbols op.place ++
    items.flatMap (fun e => op.symbol :: e.symbols op.place) ∧ e = joinedBy op first items := by
  by_cases h : e.precedence = op.precedence
  · cases e with
    | boolean op' first second more =>
      obtain rfl : op' = op := by cases op' <;> cases op <;> first | rfl | cases h
      exact ⟨first, second :: more, by rw [symbols_of_eq h, bare_boolean], rfl⟩
    | unary op' | binary op' => cases op <;> cases op' <;> cases h
    | _ => cases op <;> cases h
  · exact ⟨e, [], by simp [symbols_eq_of_ne h (show op.place.rank = _ by cases op <;> rfl)], rfl⟩

theorem boolean_reads (op : BoolOp) {operand : Parse Node}
    (hoperand : ReadsShort operand op.place (size + 1)) :
    ReadsShort (boolean op op.symbol.1 operand) op.precedence (size + 1) := by
  intro e hsize
  obtain ⟨first, items, hsymbols, rfl⟩ := exists_joinedBy op e
  rw [hsymbols, length_append] at hsize
  have hrank : op.place.rank = op.precedence.rank + 1 := by cases op <;> rfl
  rw [ReadsAt, hsymbols, boolean]
  refine Reads.many_behind op.place.endedBy rfl (fun c hc => ?_)
    (fun rest hrest => endedBy_of_le hrest (by omega)) (hoperand first (by omega))
    (fun x hx c rest hc hrest => ?_)
    (fun x _ rest => by cases op <;> rfl) (fun x _ => cons_ne_nil _ _)
    fun n found c hn (hfound : List.Forall₂ Expr.Shapes items found) => ?_
  · exact behind_of_ne (kind_ne_of_end hc (by cases op <;> rfl)) operand
  · have hlength := length_le_flatMap (f := fun e : Expr => op.symbol :: e.symbols op.place) hx
    simp only [length_cons] at hlength
    obtain ⟨n, c', hrun, hc', hn⟩ := hoperand x (by omega) c.advance rest (symbols_behind hc) hrest
    exact ⟨_, c', behind_of_eq (current_kind hc) hrun, hc', n, rfl, hn⟩
  · cases hfound with
    | nil => exact ⟨n, rfl, hn⟩
    | cons hsecond hmore => exact ⟨_, rfl, .boolean (.cons hn (.cons hsecond hmore))⟩

theorem test_reads (hinner : ReadsWithin inner size)
    (horTest : ReadsShort (orTest inner) .orTest (size + 1)) :
    ReadsShort (test inner) .test (size + 1) := by
  intro e hsize c rest hc hrest
  have hlambda : c.current.kind ≠ .kwLambda := kind_ne_of_start hc rfl
  by_cases htest : e.precedence = .test
  · obtain ⟨body, condition, orElse, rfl⟩ :
        ∃ body condition orElse, e = .conditional body condition orElse := by
      cases e with
      | conditional body condition orElse => exact ⟨body, condition, orElse, rfl⟩
      | unary op | binary op | boolean op => cases op <;> cases htest
      | _ => cases htest
    rw [symbols_of_eq htest, bare_conditional] at hc hsize
    simp only [length_append, length_cons] at hsize
    simp only [append_assoc, cons_append] at hc
    obtain ⟨k, c₁, hbody, hc₁, hk⟩ := horTest body (by omega) c _ hc rfl
    have hif : c₁.current.kind = .kwIf := current_kind hc₁
    obtain ⟨m, c₂, hcondition, hc₂, hm⟩ :=
      hinner .orTest condition (by rw [Level.place]; omega) c₁.advance _ (symbols_behind hc₁) rfl
    have helse : c₂.current.kind = .kwElse := current_kind hc₂
    rw [← symbols_test] at hsize hc₂
    obtain ⟨n, c', horElse, hc', hn⟩ :=
      hinner .test orElse (by rw [Level.place]; omega) c₂.advance rest (symbols_behind hc₂) hrest
    refine ⟨.mk ⟨k.start, c'.lastEnd⟩ .load (.conditional k m n), c', ?_, hc',
      .conditional hk hm hn⟩
    rw [test, kind_bind, if_neg (by simpa using hlambda), bind_of_ok hbody, accept_ite_of_eq hif,
      bind_of_ok hcondition, expect_bind helse, bind_of_ok horElse]
    rfl
  · have hsymbols : e.symbols .test = e.symbols .orTest := symbols_eq_of_ne htest rfl
    obtain ⟨n, c', hrun, hc', hn⟩ := horTest e (hsymbols ▸ hsize) c rest (hsymbols ▸ hc)
      (endedBy_of_le hrest (by decide))
    have hif : c'.current.kind ≠ .kwIf := kind_ne_of_end (hc' ▸ hrest) rfl
    refine ⟨n, c', ?_, hc', hn⟩
    rw [test, kind_bind, if_neg (by simpa using hlambda), bind_of_ok hrun, accept_bind_of_ne hif]
    rfl

/-- Every rule reads expressions back if the nested rules do so for what is shorter. -/
theorem rule_reads (hinner : ReadsWithin inner size) (level : Level) :
    ReadsShort (rule inner level) level.place (size + 1) := by
  have hfactor := factor_reads hinner
  have hmultiplicative : ReadsShort (multiplicative inner) .multiplicative (size + 1) :=
    chain_reads rfl hfactor
  have hadditive : ReadsShort (additive inner) .additive (size + 1) :=
    chain_reads rfl hmultiplicative
  have hshift : ReadsShort (shift inner) .shift (size + 1) := chain_reads rfl hadditive
  have hbitAnd : ReadsShort (bitwiseAnd inner) .bitAnd (size + 1) := chain_reads rfl hshift
  have hbitXor : ReadsShort (bitwiseXor inner) .bitXor (size + 1) := chain_reads rfl hbitAnd
  have hbitOr : ReadsShort (bitwiseOr inner) .bitOr (size + 1) := chain_reads rfl hbitXor
  have hnotTest := notTest_reads hinner (comparison_reads hinner hbitOr)
  have horTest : ReadsShort (orTest inner) .orTest (size + 1) :=
    boolean_reads .or (boolean_reads .and hnotTest)
  cases level with
  | test => exact test_reads hinner horTest
  | orTest => exact horTest
  | notTest => exact hnotTest
  | bitwiseOr => exact hbitOr
  | factor => exact hfactor

/-- Closed to some depth, the rules read back what has no more symbols than that. -/
theorem expressionWithin_reads (depth : Nat) : ReadsWithin (expressionWithin depth) depth := by
  induction depth with
  | zero =>
    intro level e hsize
    have : 0 < (e.symbols level.place).length := length_symbols_pos
    omega
  | succ depth ih => exact rule_reads ih

/-- The rules read every expression back. -/
theorem expression_reads (level : Level) (e : Expr) : ReadsAt (expression level) level.place e := by
  intro c rest hc hrest
  refine expressionWithin_reads (c.ahead + 1) level e ?_ c rest hc hrest
  rw [← c.length_symbols, hc, length_append]
  exact Nat.le_add_right _ _

end Grammar

end NameInference

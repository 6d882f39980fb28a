import NameInference.Proofs.Expression.Printing

/-!
# The symbols of a printed expression

The symbols at a place, constructor by constructor, what the first of them can be, and which symbols
may stand behind an expression without belonging to it.
-/

namespace NameInference

open List

variable {s : Symbol} {rest : List Symbol}

namespace Expr

/-- Induction over expressions, with the hypothesis for every operand and every argument. -/
@[induction_eliminator]
theorem induction {P : Expr → Prop} (name : ∀ id, P (.name id)) (int : ∀ literal, P (.int literal))
    (unary : ∀ op e, P e → P (.unary op e)) (binary : ∀ op l r, P l → P r → P (.binary op l r))
    (boolean : ∀ op first second more, P first → P second → (∀ e ∈ more, P e) →
      P (.boolean op first second more))
    (compare : ∀ left op right more, P left → P right → (∀ x ∈ more, P x.2) →
      P (.compare left op right more))
    (conditional : ∀ body test orElse, P body → P test → P orElse →
      P (.conditional body test orElse)) (attr : ∀ value member, P value → P (.attr value member))
    (call : ∀ callee args, P callee → (∀ e ∈ args, P e) → P (.call callee args))
    (subscript : ∀ value index, P value → P index → P (.subscript value index)) (e : Expr) :
      P e := by
  refine @Expr.rec P (fun es => ∀ e ∈ es, P e) (fun xs => ∀ x ∈ xs, P x.2) (P ·.2) name int unary
    binary boolean compare conditional attr call subscript ?_ ?_ ?_ ?_ (fun _ _ he => he) e
  · exact forall_mem_nil P
  · exact fun _ _ he hmore => forall_mem_cons.mpr ⟨he, hmore⟩
  · exact forall_mem_nil _
  · exact fun _ _ hx hmore => forall_mem_cons.mpr ⟨hx, hmore⟩

/-- The symbols of an expression without parentheses around the whole. -/
def bare (e : Expr) : List Symbol := e.pieces.filterMap Piece.symbol?

/-- The symbols of an expression at a place. -/
def symbols (place : Precedence) (e : Expr) : List Symbol :=
  (e.piecesAt place).filterMap Piece.symbol?

theorem filterMap_enclosed (needed : Bool) (pieces : List Piece) :
    (Piece.enclosed needed pieces).filterMap Piece.symbol? =
      if needed then Symbol.openParen :: pieces.filterMap Piece.symbol? ++ [Symbol.closeParen]
      else pieces.filterMap Piece.symbol? := by
  cases needed <;> simp [Piece.enclosed]

theorem filterMap_spaced (symbols : List Symbol) :
    (Piece.spaced symbols).filterMap Piece.symbol? = symbols := by
  have hinner : ((symbols.map Piece.symbol).intersperse .blank).filterMap Piece.symbol? =
      symbols := by
    induction symbols with
    | nil => rfl
    | cons s rest ih =>
      cases rest with
      | nil => rfl
      | cons t rest => simpa using ih
  simp [Piece.spaced, hinner]

/-- An expression that binds looser than its place stands in parentheses. -/
theorem symbols_eq (place : Precedence) (e : Expr) :
    e.symbols place =
      if e.precedence.looser place then Symbol.openParen :: e.bare ++ [Symbol.closeParen]
      else e.bare :=
  filterMap_enclosed _ _

section Bare

attribute [local simp] pieces

theorem bare_unary (op : UnaryOp) (e : Expr) :
    (unary op e).bare = op.symbol :: e.symbols op.precedence := by
  simp [bare, symbols, piecesAt]

theorem bare_binary (op : BinaryOp) (l r : Expr) :
    (binary op l r).bare = l.symbols op.leftPlace ++ op.symbol :: r.symbols op.rightPlace := by
  simp [bare, symbols, piecesAt, filterMap_spaced]

theorem bare_boolean (op : BoolOp) (first second : Expr) (more : List Expr) :
    (boolean op first second more).bare =
      first.symbols op.place ++ (second :: more).flatMap fun e =>
        op.symbol :: e.symbols op.place := by
  have hlisted : (listed (Piece.spaced [op.symbol]) op.place more).filterMap Piece.symbol? =
      more.flatMap fun e => op.symbol :: e.symbols op.place := by
    simp [listed_eq, filterMap_flatMap, filterMap_spaced, symbols]
  simp [bare, symbols, piecesAt, filterMap_spaced, hlisted]

theorem bare_compare (left : Expr) (op : CompareOp) (right : Expr)
    (more : List (CompareOp × Expr)) :
    (compare left op right more).bare =
      left.symbols .bitOr ++ ((op, right) :: more).flatMap fun x =>
        x.1.symbols ++ x.2.symbols .bitOr := by
  have hcompared : (compared more).filterMap Piece.symbol? =
      more.flatMap fun x => x.1.symbols ++ x.2.symbols .bitOr := by
    simp [compared_eq, filterMap_flatMap, filterMap_spaced, symbols]
  simp [bare, symbols, piecesAt, filterMap_spaced, hcompared]

theorem bare_conditional (body test orElse : Expr) :
    (conditional body test orElse).bare =
      body.symbols .orTest ++ Symbol.ifWord ::
        (test.symbols .orTest ++ Symbol.elseWord :: orElse.bare) := by
  simp [bare, symbols, piecesAt, filterMap_spaced]

theorem bare_attr (value : Expr) (member : Identifier) :
    (attr value member).bare =
      (if value.isInt then Symbol.openParen :: value.bare ++ [Symbol.closeParen]
        else value.symbols .primary) ++ [Symbol.dot, Symbol.ident member] := by
  have hvalue : (Piece.enclosed (value.precedence.looser .primary || value.isInt)
    value.pieces).filterMap
      Piece.symbol? = if value.isInt then Symbol.openParen :: value.bare ++ [Symbol.closeParen]
        else value.symbols .primary := by
    rw [filterMap_enclosed]
    cases h : value.isInt
    · simp [symbols_eq, bare]
    · simp [bare]
  simp [bare, hvalue]

/-- The symbols of the arguments of a call. -/
def argSymbols : List Expr → List Symbol
  | [] => []
  | first :: more => first.bare ++ more.flatMap fun e => Symbol.comma :: e.bare

theorem bare_call (callee : Expr) (args : List Expr) :
    (call callee args).bare =
      callee.symbols .primary ++ Symbol.openParen :: argSymbols args ++ [Symbol.closeParen] := by
  cases args with
  | nil => simp [bare, symbols, piecesAt, argSymbols]
  | cons first more =>
    have hlisted : (listed [.symbol Symbol.comma, .blank] .test more).filterMap Piece.symbol? =
        more.flatMap fun e => Symbol.comma :: e.bare := by
      simp [listed_eq, filterMap_flatMap, piecesAt, Precedence.looser, Precedence.rank,
        Piece.enclosed, bare]
    simp [bare, symbols, piecesAt, argSymbols, hlisted]

theorem bare_subscript (value index : Expr) :
    (subscript value index).bare =
      value.symbols .primary ++ Symbol.openBracket :: index.bare ++ [Symbol.closeBracket] := by
  simp [bare, symbols, piecesAt]

end Bare

theorem symbols_test (e : Expr) : e.symbols .test = e.bare := by
  simp [symbols_eq, Precedence.looser, Precedence.rank]

end Expr

namespace Precedence

/-- The kinds of symbols with which an expression of a level can begin. -/
def startsWith (p : Precedence) : TokenKind → Bool
  | .ident | .int | .lparen => true
  | .minus | .plus | .tilde => p.rank ≤ unary.rank
  | .kwNot => p.rank ≤ notTest.rank
  | _ => false

theorem startsWith_of_le {p q : Precedence} {kind : TokenKind} (h : q.startsWith kind = true)
    (hpq : p.rank ≤ q.rank) : p.startsWith kind = true := by
  unfold startsWith at h ⊢
  split at h <;> simp_all <;> omega

/-- The lowest level whose expressions end before a symbol of this kind. -/
def endRank? : TokenKind → Option Nat
  | .newline | .rparen | .rbracket | .comma | .kwElse => some test.rank
  | .kwIf => some orTest.rank
  | .kwOr => some andTest.rank
  | .kwAnd => some notTest.rank
  | .eqEq | .notEq | .lt | .le | .gt | .ge | .kwIn | .kwIs | .kwNot => some bitOr.rank
  | .pipe => some bitXor.rank
  | .caret => some bitAnd.rank
  | .amp => some shift.rank
  | .lshift | .rshift => some additive.rank
  | .plus | .minus => some multiplicative.rank
  | .star | .slash | .slashSlash | .percent | .atSign => some unary.rank
  | .starStar => some primary.rank
  | .lparen | .lbracket | .dot => some (primary.rank + 1)
  | _ => none

/-- Whether an expression of the level ends before a symbol of this kind. -/
def endsBefore (p : Precedence) (kind : TokenKind) : Bool := (endRank? kind).any (· ≤ p.rank)

/-- Whether an expression of the level ends before the given symbols. -/
def endedBy (p : Precedence) : List Symbol → Bool
  | [] => false
  | s :: _ => p.endsBefore s.1

theorem exists_cons_of_endedBy {p : Precedence} (h : p.endedBy rest = true) :
    ∃ s more, rest = s :: more ∧ p.endsBefore s.1 = true := by
  cases rest with
  | nil => cases h
  | cons s more => exact ⟨s, more, rfl, h⟩

/-- What ends an expression of some level ends the tighter ones. -/
theorem endedBy_of_le {p q : Precedence} (h : p.endedBy rest = true) (hpq : p.rank ≤ q.rank) :
    q.endedBy rest = true := by
  obtain ⟨s, more, rfl, hs⟩ := exists_cons_of_endedBy h
  simp only [endsBefore, Option.any_eq_true, decide_eq_true_eq] at hs
  obtain ⟨r, hr, hle⟩ := hs
  simp only [endedBy, endsBefore, Option.any_eq_true, decide_eq_true_eq]
  exact ⟨r, hr, Nat.le_trans hle hpq⟩

end Precedence

/-- The symbols of which printed expressions are made. -/
inductive Symbol.Printed : Symbol → Prop where
  | openParen : Printed openParen
  | closeParen : Printed closeParen
  | openBracket : Printed openBracket
  | closeBracket : Printed closeBracket
  | comma : Printed comma
  | dot : Printed dot
  | ifWord : Printed ifWord
  | elseWord : Printed elseWord
  | ident (id : Identifier) : Printed (ident id)
  | int (literal : Numeral) : Printed (int literal)
  | unary (op : UnaryOp) : Printed op.symbol
  | binary (op : BinaryOp) : Printed op.symbol
  | boolean (op : BoolOp) : Printed op.symbol
  | compare (op : CompareOp) {s : Symbol} (h : s ∈ op.symbols) : Printed s

namespace Expr

/-- Operands bind at least as tight as the expressions they stand in on the left. -/
theorem rank_leftPlace (op : BinaryOp) : op.precedence.rank ≤ op.leftPlace.rank := by
  cases op <;> decide

theorem rank_place (op : BoolOp) : op.precedence.rank ≤ op.place.rank := by
  cases op <;> decide

theorem exists_head_of_bare {e : Expr}
    (h : ∃ x rest, e.bare = x :: rest ∧ e.precedence.startsWith x.1 = true) (place : Precedence) :
    ∃ x rest, e.symbols place = x :: rest ∧ place.startsWith x.1 = true := by
  obtain ⟨x, rest, hbare, hx⟩ := h
  rw [symbols_eq]
  split
  · exact ⟨Symbol.openParen, _, rfl, rfl⟩
  · next htight =>
    refine ⟨x, rest, hbare, Precedence.startsWith_of_le hx ?_⟩
    simpa [Precedence.looser] using htight

/-- An expression begins as what stands in it on the left does. -/
theorem exists_head_of_left {e left : Expr} {place : Precedence} {more : List Symbol}
    (h : e.bare = left.symbols place ++ more) (hrank : e.precedence.rank ≤ place.rank)
    (hleft : ∃ x rest, left.bare = x :: rest ∧ left.precedence.startsWith x.1 = true) :
    ∃ x rest, e.bare = x :: rest ∧ e.precedence.startsWith x.1 = true := by
  obtain ⟨x, rest, hx, hstart⟩ := exists_head_of_bare hleft place
  exact ⟨x, rest ++ more, by rw [h, hx, cons_append], Precedence.startsWith_of_le hstart hrank⟩

/-- An expression begins with a name, an integer, a parenthesis or, where its level allows it, a
sign or a negation. -/
theorem exists_head_bare (e : Expr) :
    ∃ x rest, e.bare = x :: rest ∧ e.precedence.startsWith x.1 = true := by
  induction e with
  | name id => exact ⟨_, _, rfl, rfl⟩
  | int literal => exact ⟨_, _, rfl, rfl⟩
  | unary op e ih => exact ⟨_, _, bare_unary op e, by cases op <;> rfl⟩
  | binary op l r ih => exact exists_head_of_left (bare_binary op l r) (rank_leftPlace op) ih
  | boolean op first second more ih =>
    exact exists_head_of_left (bare_boolean ..) (rank_place op) ih
  | compare left op right more ih =>
    exact exists_head_of_left (bare_compare ..) (by simp [precedence, Precedence.rank]) ih
  | conditional body test orElse ih =>
    exact exists_head_of_left (bare_conditional ..) (by simp [precedence, Precedence.rank]) ih
  | attr value member ih =>
    have hbare := bare_attr value member
    split at hbare
    · exact ⟨_, _, hbare, rfl⟩
    · exact exists_head_of_left hbare (Nat.le_refl _) ih
  | call callee args ih =>
    exact exists_head_of_left ((bare_call ..).trans (append_assoc ..)) (Nat.le_refl _) ih
  | subscript value index ih =>
    exact exists_head_of_left ((bare_subscript ..).trans (append_assoc ..)) (Nat.le_refl _) ih

theorem exists_head (place : Precedence) (e : Expr) :
    ∃ x rest, e.symbols place = x :: rest ∧ place.startsWith x.1 = true :=
  exists_head_of_bare (exists_head_bare e) place

theorem printed_parens {symbols : List Symbol} (h : ∀ s ∈ symbols, s.Printed) :
    ∀ s ∈ Symbol.openParen :: symbols ++ [Symbol.closeParen], s.Printed := by
  simp only [cons_append, forall_mem_cons, forall_mem_append]
  exact ⟨.openParen, h, .closeParen, forall_mem_nil _⟩

/-- Putting an expression at a place adds no other symbols than parentheses. -/
theorem printed_symbols {e : Expr} (h : ∀ s ∈ e.bare, s.Printed) {place : Precedence} :
    ∀ s ∈ e.symbols place, s.Printed := by
  rw [symbols_eq]
  split
  · exact printed_parens h
  · exact h

theorem printed_argSymbols {args : List Expr} (h : ∀ e ∈ args, ∀ s ∈ e.bare, s.Printed) :
    ∀ s ∈ argSymbols args, s.Printed := by
  cases args with
  | nil => exact forall_mem_nil _
  | cons first more =>
    obtain ⟨hfirst, hmore⟩ := forall_mem_cons.mp h
    simp only [argSymbols, forall_mem_append, forall_mem_flatMap, forall_mem_cons]
    exact ⟨hfirst, fun e he => ⟨.comma, hmore e he⟩⟩

/-- Every symbol of an expression is one of those printed. -/
theorem printed_of_mem_bare (e : Expr) : ∀ s ∈ e.bare, s.Printed := by
  induction e with
  | name id => exact forall_mem_singleton.mpr (.ident id)
  | int literal => exact forall_mem_singleton.mpr (.int literal)
  | unary op e ih =>
    rw [bare_unary, forall_mem_cons]
    exact ⟨.unary op, printed_symbols ih⟩
  | binary op l r ihl ihr =>
    rw [bare_binary, forall_mem_append, forall_mem_cons]
    exact ⟨printed_symbols ihl, .binary op, printed_symbols ihr⟩
  | boolean op first second more ihf ihs ihm =>
    simp only [bare_boolean, forall_mem_append, forall_mem_flatMap, forall_mem_cons]
    exact ⟨printed_symbols ihf, ⟨.boolean op, printed_symbols ihs⟩,
      fun e he => ⟨.boolean op, printed_symbols (ihm e he)⟩⟩
  | compare left op right more ihl ihr ihm =>
    simp only [bare_compare, forall_mem_append, forall_mem_flatMap, forall_mem_cons]
    exact ⟨printed_symbols ihl, ⟨fun _ => .compare op, printed_symbols ihr⟩,
      fun x hx => ⟨fun _ => .compare x.1, printed_symbols (ihm x hx)⟩⟩
  | conditional body test orElse ihb iht iho =>
    simp only [bare_conditional, forall_mem_append, forall_mem_cons]
    exact ⟨printed_symbols ihb, .ifWord, printed_symbols iht, .elseWord, iho⟩
  | attr value member ih =>
    simp only [bare_attr, forall_mem_append, forall_mem_cons]
    refine ⟨?_, .dot, .ident member, forall_mem_nil _⟩
    split
    · exact printed_parens ih
    · exact printed_symbols ih
  | call callee args ih iha =>
    rw [bare_call, append_assoc, forall_mem_append]
    exact ⟨printed_symbols ih, printed_parens (printed_argSymbols iha)⟩
  | subscript value index ihv ihi =>
    simp only [bare_subscript, forall_mem_append, forall_mem_cons]
    exact ⟨⟨printed_symbols ihv, .openBracket, ihi⟩, .closeBracket, forall_mem_nil _⟩

end Expr

/-- The symbols behind a name that bind it: a named expression or a keyword argument. -/
def Symbol.binds (s : Symbol) : Bool := s.1 == .colonEqual || s.1 == .equal

theorem Symbol.Printed.not_binds (h : s.Printed) : s.binds = false := by
  cases h with
  | unary op => cases op <;> rfl
  | binary op => cases op <;> rfl
  | boolean op => cases op <;> rfl
  | compare op h =>
    have hall : ∀ s ∈ op.symbols, s.binds = false := by cases op <;> simp [CompareOp.symbols, binds]
    exact hall s h
  | _ => rfl

theorem Precedence.not_binds_of_endedBy {p : Precedence}
    (h : p.endedBy (s :: rest) = true) : s.binds = false := by
  obtain ⟨kind, text⟩ := s
  cases kind <;> first | rfl | simp [endedBy, endsBefore, endRank?] at h

/-- The second symbol from the beginning of an expression on binds nothing. -/
theorem Expr.second_not_binds {place p : Precedence} {e : Expr} {x y : Symbol}
    {rest more : List Symbol} (h : e.symbols place ++ rest = x :: y :: more)
    (hrest : p.endedBy rest = true) : y.binds = false := by
  obtain ⟨head, tail, hsymbols, -⟩ := e.exists_head place
  rw [hsymbols, cons_append, List.cons.injEq] at h
  cases tail with
  | nil =>
    rw [nil_append] at h
    rw [h.2] at hrest
    exact Precedence.not_binds_of_endedBy hrest
  | cons z tail =>
    obtain ⟨-, rfl, -⟩ : head = x ∧ z = y ∧ tail ++ rest = more := by simpa using h
    have hmem : z ∈ e.symbols place := by simp [hsymbols]
    exact (printed_symbols (printed_of_mem_bare e) z hmem).not_binds

end NameInference

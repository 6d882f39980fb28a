import NameInference.Syntax.Grammar.Expression
import NameInference.Proofs.Expression.Symbols

/-!
# Reading atoms and trailers

A printed primary is a name, an integer or an expression in parentheses with attributes, calls and
subscripts behind it. The rules for these read it back, provided that the rules for what stands
inside of brackets read shorter expressions.
-/

namespace NameInference.Grammar

open Cursor List NameInference.Expr Parse

/-- The place that a nested rule is for. -/
def Level.place : Level → Precedence
  | .test => .test
  | .orTest => .orTest
  | .notTest => .notTest
  | .bitwiseOr => .bitOr
  | .factor => .unary

/-- The rule reads the expression back where it is printed for a place. -/
def ReadsAt (rule : Parse Node) (place : Precedence) (e : Expr) : Prop :=
  Reads rule (e.symbols place) place.endedBy e.Shapes

/-- The rule reads expressions of at most `size` symbols back at a place. -/
def ReadsShort (rule : Parse Node) (place : Precedence) (size : Nat) : Prop :=
  ∀ e, (e.symbols place).length ≤ size → ReadsAt rule place e

/-- Nested rules read expressions of at most `size` symbols back. -/
def ReadsWithin (inner : Inner) (size : Nat) : Prop :=
  ∀ level, ReadsShort (inner level) level.place size

/-- Something follows. -/
def goesOn (rest : List Symbol) : Bool := !rest.isEmpty

variable {inner : Inner} {size : Nat} {c : Cursor} {e : Expr} {place p : Precedence}
  {rest : List Symbol}

theorem exists_cons_of_goesOn (h : goesOn rest = true) : ∃ y more, rest = y :: more := by
  cases rest with
  | nil => cases h
  | cons y more => exact ⟨y, more, rfl⟩

/-- At the beginning of an expression stands one of the kinds it can begin with. -/
theorem startsWith_current (hc : c.symbols = e.symbols place ++ rest) :
    place.startsWith c.current.kind = true := by
  obtain ⟨x, tail, hx, hstart⟩ := e.exists_head place
  rw [hx] at hc
  rwa [current_kind hc]

/-- A kind with which no expression of a level begins does not stand where one begins. -/
theorem kind_ne_of_start (hc : c.symbols = e.symbols place ++ rest) {kind : TokenKind}
    (hkind : place.startsWith kind = false) : c.current.kind ≠ kind := by
  rintro rfl
  simp [startsWith_current hc] at hkind

/-- A kind before which no expression of a level ends does not stand where one ends. -/
theorem kind_ne_of_end (hc : p.endedBy c.symbols = true) {kind : TokenKind}
    (hkind : p.endsBefore kind = false) :
    c.current.kind ≠ kind := by
  rintro rfl
  obtain ⟨s, more, hs, hends⟩ := Precedence.exists_cons_of_endedBy hc
  rw [← current_kind hs, hkind] at hends
  cases hends

/-- Behind the first symbol of an expression no name is bound. -/
theorem next_not_binds (hc : c.symbols = e.symbols place ++ rest) (hrest : p.endedBy rest = true) :
    (c.rest.headD c.current).kind ≠ .colonEqual ∧ (c.rest.headD c.current).kind ≠ .equal := by
  obtain ⟨x, tail, hx, -⟩ := e.exists_head place
  obtain ⟨z, more, rfl, -⟩ := Precedence.exists_cons_of_endedBy hrest
  obtain ⟨y, after, hy⟩ : ∃ y after, tail ++ z :: more = y :: after := by
    cases tail with
    | nil => exact ⟨z, more, rfl⟩
    | cons y tail => exact ⟨y, tail ++ z :: more, rfl⟩
  have hsymbols : e.symbols place ++ z :: more = x :: y :: after := by rw [hx, cons_append, hy]
  have hy := second_not_binds hsymbols hrest
  rw [next_kind (hc.trans hsymbols)]
  simpa [Symbol.binds] using hy

/-- An expression at the loosest place is not taken for a named one. -/
theorem namedOr_reads (inner : Inner) {test : Parse Node} (h : ReadsAt test .test e) :
    ReadsAt (namedOr inner test) .test e := by
  intro c rest hc hrest
  have hnext := beq_eq_false_iff_ne.mpr (next_not_binds hc hrest).1
  rw [namedOr, kind_bind, nextKind_bind, hnext, Bool.and_false, if_neg Bool.false_ne_true]
  exact h c rest hc hrest

/-- An expression at the loosest place is an element. -/
theorem element_reads (inner : Inner) {test : Parse Node} (h : ReadsAt test .test e) :
    ReadsAt (element inner test) .test e := by
  intro c rest hc hrest
  have hstar : c.current.kind ≠ .star := kind_ne_of_start hc rfl
  rw [element, kind_bind, if_neg (by simpa using hstar)]
  exact namedOr_reads inner h c rest hc hrest

/-- No comprehension begins behind an expression that has ended. -/
theorem atClause_bind {β : Type} (hc : p.endedBy c.symbols = true) (f : Bool → Parse β) :
    (atClause >>= f) c = f false c := by
  have hfor : c.current.kind ≠ .kwFor := kind_ne_of_end hc rfl
  have hasync : c.current.kind ≠ .kwAsync := kind_ne_of_end hc rfl
  refine bind_of_ok ?_
  rw [atClause, kind_bind, nextKind_bind]
  simp [hfor, hasync, pure_eq]

/-- What an atom can be, with its symbols. -/
inductive AtomSymbols : Expr → List Symbol → Prop where
  | name (id : Identifier) : AtomSymbols (.name id) [Symbol.ident id]
  | int (literal : Numeral) : AtomSymbols (.int literal) [Symbol.int literal]
  | parens (e : Expr) : AtomSymbols e (Symbol.openParen :: e.bare ++ [Symbol.closeParen])

theorem parenthesized_reads (h : ReadsAt (inner .test) .test e) :
    Reads (parenthesized inner) (Symbol.openParen :: e.bare ++ [Symbol.closeParen]) goesOn
      e.Shapes := by
  intro c rest hc hrest
  obtain ⟨y, more, rfl⟩ := exists_cons_of_goesOn hrest
  have hin : c.advance.symbols = e.symbols .test ++ Symbol.closeParen :: y :: more := by
    rw [symbols_test]
    exact symbols_advance_of_ne_nil (by simpa using hc) (by simp)
  have hclose : c.advance.current.kind ≠ .rparen := kind_ne_of_start hin rfl
  have hyield : c.advance.current.kind ≠ .kwYield := kind_ne_of_start hin rfl
  obtain ⟨n, c', hrun, hc', hn⟩ :=
    element_reads inner h c.advance (Symbol.closeParen :: y :: more) hin rfl
  have hend : Precedence.test.endedBy c'.symbols = true := by
    rw [hc']
    rfl
  have hparen : c'.current.kind = .rparen := current_kind hc'
  refine ⟨n, c'.advance, ?_, symbols_advance hc', hn⟩
  rw [parenthesized, take_bind, accept_ite_of_ne hclose, kind_bind, if_neg (by simpa using hyield),
    bind_of_ok hrun, atClause_bind hend, if_neg Bool.false_ne_true, kind_bind,
    if_pos (by simp [hparen]), expect_bind hparen]
  rfl

/-- The rule for atoms reads atoms back. -/
theorem atom_reads {symbols : List Symbol} (hinner : ReadsWithin inner size)
    (h : AtomSymbols e symbols) (hsize : symbols.length ≤ size + 1) :
    Reads (atom inner) symbols goesOn e.Shapes := by
  intro c rest hc hrest
  obtain ⟨y, more, rfl⟩ := exists_cons_of_goesOn hrest
  cases h with
  | name id =>
    have hkind : c.current.kind = .ident := current_kind hc
    have htext : c.current.text = id.text := current_text hc
    refine ⟨c.current.toName .load, c.advance, ?_, symbols_advance hc, ?_⟩
    · rw [atom, kind_bind, hkind]
      rfl
    · rw [Token.toName, htext]
      exact .name
  | int literal =>
    have hkind : c.current.kind = .int := current_kind hc
    have htext : c.current.text = literal.text := current_text hc
    refine ⟨.mk ⟨c.current.start, c.advance.lastEnd⟩ .load (.int c.current.text), c.advance, ?_,
      symbols_advance hc, ?_⟩
    · rw [atom, kind_bind, hkind]
      rfl
    · rw [htext]
      exact .int
  | parens e =>
    have hkind : c.current.kind = .lparen := current_kind hc
    have hread : ReadsAt (inner .test) .test e := by
      refine hinner .test e ?_
      rw [Level.place, symbols_test]
      simp only [length_append, length_cons, length_nil] at hsize
      omega
    obtain ⟨n, c', hrun, hc', hn⟩ := parenthesized_reads hread c (y :: more) hc hrest
    refine ⟨n, c', ?_, hc', hn⟩
    rw [atom, kind_bind, hkind]
    exact hrun

theorem length_le_flatMap {X Y : Type} {f : X → List Y} {x : X} {xs : List X} (h : x ∈ xs) :
    (f x).length ≤ (xs.flatMap f).length := by
  induction xs with
  | nil => cases h
  | cons y ys ih =>
    rw [flatMap_cons, length_append]
    rcases mem_cons.mp h with rfl | h
    · exact Nat.le_add_right _ _
    · exact Nat.le_trans (ih h) (Nat.le_add_left _ _)

/-- What can stand behind a primary. -/
inductive Trail where
  | call (args : List Expr)
  | subscript (index : Expr)
  | member (id : Identifier)

namespace Trail

def symbols : Trail → List Symbol
  | call args => Symbol.openParen :: Expr.argSymbols args ++ [Symbol.closeParen]
  | subscript index => Symbol.openBracket :: index.bare ++ [Symbol.closeBracket]
  | member id => [Symbol.dot, Symbol.ident id]

/-- The expression with the trailer behind it. -/
def apply (e : Expr) : Trail → Expr
  | call args => .call e args
  | subscript index => .subscript e index
  | member id => .attr e id

/-- The trailer of a tree has the shape of the printed one. -/
inductive Shapes : Trail → Trailer → Prop where
  | call {args : List Expr} {nodes : List Node} : List.Forall₂ Expr.Shapes args nodes →
      Shapes (.call args) (.call nodes [])
  | subscript {index : Expr} {n : Node} : index.Shapes n → Shapes (.subscript index) (.subscript n)
  | member {id : Identifier} {position : Position} : Shapes (.member id) (.member id.text position)

end Trail

/-- The symbols are those of an atom with trailers behind it, which make up the expression. -/
def Trailed (e : Expr) (symbols : List Symbol) : Prop :=
  ∃ (base : Expr) (head : List Symbol) (trails : List Trail), AtomSymbols base head ∧
    symbols = head ++ trails.flatMap Trail.symbols ∧ e = trails.foldl Trail.apply base

theorem AtomSymbols.trailed {symbols : List Symbol} (h : AtomSymbols e symbols) :
    Trailed e symbols :=
  ⟨e, symbols, [], h, by simp, rfl⟩

theorem Trailed.apply {symbols : List Symbol} (h : Trailed e symbols) (trail : Trail) :
    Trailed (trail.apply e) (symbols ++ trail.symbols) := by
  obtain ⟨base, head, trails, hatom, rfl, rfl⟩ := h
  exact ⟨base, head, trails ++ [trail], hatom, by simp, by simp⟩

/-- A printed primary is an atom with trailers behind it. -/
theorem trailed_symbols (e : Expr) : Trailed e (e.symbols .primary) := by
  have hparens {e : Expr} (h : e.precedence.looser .primary = true) :
      Trailed e (e.symbols .primary) := by
    rw [symbols_eq, if_pos h]
    exact (AtomSymbols.parens e).trailed
  have htight {e : Expr} (h : e.precedence = .primary) : e.symbols .primary = e.bare := by
    rw [symbols_eq, h, if_neg (by decide)]
  induction e with
  | name id => exact (AtomSymbols.name id).trailed
  | int literal => exact (AtomSymbols.int literal).trailed
  | unary op e ih => exact hparens (by cases op <;> rfl)
  | binary op l r ihl ihr => exact hparens (by cases op <;> rfl)
  | boolean op first second more ihf ihs ihm => exact hparens (by cases op <;> rfl)
  | compare left op right more ihl ihr ihm => exact hparens rfl
  | conditional body test orElse ihb iht iho => exact hparens rfl
  | attr value member ih =>
    rw [htight rfl, bare_attr]
    split
    · exact (AtomSymbols.parens value).trailed.apply (.member member)
    · exact ih.apply (.member member)
  | call callee args ih iha =>
    rw [htight rfl, bare_call]
    simpa [Trail.symbols, Trail.apply] using ih.apply (.call args)
  | subscript value index ihv ihi =>
    rw [htight rfl, bare_subscript]
    simpa [Trail.symbols, Trail.apply] using ihv.apply (.subscript index)

/-- An argument that is an expression is positional. -/
theorem argument_reads (h : ReadsAt (inner .test) .test e) :
    Reads (argument inner) e.bare Precedence.test.endedBy fun a => ∃ n, a = .positional n ∧
      e.Shapes n := by
  intro c rest hc hrest
  rw [← symbols_test] at hc
  have hstar : c.current.kind ≠ .star := kind_ne_of_start hc rfl
  have hstars : c.current.kind ≠ .starStar := kind_ne_of_start hc rfl
  have hequal := beq_eq_false_iff_ne.mpr (next_not_binds hc hrest).2
  obtain ⟨n, c', hrun, hc', hn⟩ := namedOr_reads inner h c rest hc hrest
  refine ⟨.positional n, c', ?_, hc', n, rfl, hn⟩
  rw [argument, token_bind, accept_ite_of_ne hstar, accept_ite_of_ne hstars, nextKind_bind, hequal,
    Bool.and_false, if_neg Bool.false_ne_true, bind_of_ok hrun, atClause_bind (hc' ▸ hrest),
    if_neg Bool.false_ne_true]
  rfl

theorem length_bare_le_argSymbols {args : List Expr} (h : e ∈ args) :
    e.bare.length ≤ (Expr.argSymbols args).length := by
  cases args with
  | nil => cases h
  | cons first more =>
    rw [Expr.argSymbols, length_append]
    rcases mem_cons.mp h with rfl | h
    · exact Nat.le_add_right _ _
    · have hsub : (Symbol.comma :: e.bare).length ≤
        (more.flatMap fun e => Symbol.comma :: e.bare).length :=
        length_le_flatMap (f := fun e : Expr => Symbol.comma :: e.bare) h
      rw [length_cons] at hsub
      omega

theorem endedBy_of_closes (h : closes rest = true) : p.endedBy rest = true := by
  obtain ⟨⟨kind, text⟩, more, rfl, rfl⟩ := exists_cons_of_closes h
  exact decide_eq_true (Nat.zero_le p.rank)

/-- Positional arguments are all of the arguments. -/
private theorem arguments_of_positional {args : List Expr} {all : List Argument} {c' : Cursor}
    (hrun : betweenCommas (· != .rparen) (argument inner) c = .ok (all, c'))
    (h : List.Forall₂ (fun e a => ∃ n, a = Argument.positional n ∧ e.Shapes n) args all) :
    ∃ r, arguments inner c = .ok (r, c') ∧ List.Forall₂ Expr.Shapes args r.1 ∧ r.2 = [] := by
  rw [arguments, bind_of_ok hrun]
  refine ⟨_, rfl, ?_⟩
  clear hrun
  induction h with
  | nil => exact ⟨.nil, rfl⟩
  | cons h _ ih =>
    obtain ⟨n, rfl, hn⟩ := h
    exact ⟨.cons hn ih.1, ih.2⟩

/-- The arguments of a printed call are positional. -/
theorem arguments_reads {args : List Expr} (h : ∀ e ∈ args, ReadsAt (inner .test) .test e) :
    Reads (arguments inner) (Expr.argSymbols args) closes
      fun r => List.Forall₂ Expr.Shapes args r.1 ∧ r.2 = [] := by
  have hall : Reads (betweenCommas (· != .rparen) (argument inner))
    (separated Symbol.comma Expr.bare args) closes
      (List.Forall₂ (fun e a => ∃ n, a = Argument.positional n ∧ e.Shapes n) args) := by
    refine reads_iff.mpr
      (betweenCommas_readsAmong Precedence.test.endedBy rfl (fun _ => endedBy_of_closes)
        (fun _ => rfl) (fun e he => reads_iff.mp (argument_reads (h e he))) fun e _ => ?_)
    obtain ⟨x, tail, hx, hstart⟩ := e.exists_head .test
    refine ⟨x, tail, by rw [← hx, symbols_test], fun hk => ?_⟩
    rw [hk] at hstart
    cases hstart
  intro c rest hc hrest
  have hargs : Expr.argSymbols args = separated Symbol.comma Expr.bare args := by cases args <;> rfl
  obtain ⟨all, c', hrun, hc', hshapes⟩ := hall c rest (hargs ▸ hc) hrest
  obtain ⟨r, hr, hshapes⟩ := arguments_of_positional hrun hshapes
  exact ⟨r, c', hr, hc', hshapes⟩

/-- What stands between the brackets of a printed subscript is its index. -/
theorem subscripts_reads (h : ReadsAt (inner .test) .test e) :
    Reads (subscripts inner) e.bare (fun rest => rest.head?.any (·.1 == .rbracket)) e.Shapes := by
  intro c rest hc hrest
  obtain ⟨⟨kind, text⟩, more, rfl, rfl⟩ :
      ∃ y more, rest = y :: more ∧ y.1 = TokenKind.rbracket := by
    cases rest with
    | nil => cases hrest
    | cons y more => exact ⟨y, more, rfl, by simpa using hrest⟩
  rw [← symbols_test] at hc
  have hcolon : c.current.kind ≠ .colon := kind_ne_of_start hc rfl
  obtain ⟨n, c', hrun, hc', hn⟩ := element_reads inner h c _ hc rfl
  have hkind : c'.current.kind = .rbracket := current_kind hc'
  refine ⟨n, c', ?_, hc', hn⟩
  have hitem : sliceItem inner c = .ok (n, c') := by
    rw [sliceItem, start_bind, kind_bind, if_neg (by simpa using hcolon), bind_of_ok hrun,
      kind_bind, hkind]
    rfl
  rw [subscripts, bind_of_ok hitem, tupleAfter, kind_bind, hkind]
  rfl

/-- The rule for trailers reads a trailer back. -/
theorem trailer_reads {trail : Trail} (hinner : ReadsWithin inner size)
    (hsize : trail.symbols.length ≤ size + 1) :
    Reads (trailer inner) trail.symbols goesOn fun o => ∃ a, o = some a ∧ trail.Shapes a.1 := by
  intro c rest hc hrest
  obtain ⟨y, more, rfl⟩ := exists_cons_of_goesOn hrest
  cases trail with
  | call args =>
    have hkind : c.current.kind = .lparen := current_kind hc
    have hargs : ∀ e ∈ args, ReadsAt (inner .test) .test e := by
      intro e he
      refine hinner .test e ?_
      have := length_bare_le_argSymbols he
      rw [Level.place, symbols_test]
      simp only [Trail.symbols, length_append, length_cons, length_nil] at hsize
      omega
    have hin : c.advance.symbols = Expr.argSymbols args ++ Symbol.closeParen :: y :: more :=
      symbols_advance_of_ne_nil (by simpa [Trail.symbols] using hc) (by simp)
    obtain ⟨r, c', hrun, hc', hr, hkeywords⟩ := arguments_reads hargs c.advance _ hin rfl
    have hclose : c'.current.kind = .rparen := current_kind hc'
    refine ⟨some (.call r.1 r.2, c'.advance.lastEnd), c'.advance, ?_, symbols_advance hc', _, rfl,
      ?_⟩
    · rw [trailer, accept_ite_of_eq hkind, bind_of_ok hrun]
      simp only
      rw [expect_bind hclose]
      rfl
    · rw [hkeywords]
      exact .call hr
  | subscript index =>
    have hkind : c.current.kind = .lbracket := current_kind hc
    have hindex : ReadsAt (inner .test) .test index := by
      refine hinner .test index ?_
      rw [Level.place, symbols_test]
      simp only [Trail.symbols, length_append, length_cons, length_nil] at hsize
      omega
    have hin : c.advance.symbols = index.bare ++ Symbol.closeBracket :: y :: more :=
      symbols_advance_of_ne_nil (by simpa [Trail.symbols] using hc) (by simp)
    obtain ⟨n, c', hrun, hc', hn⟩ := subscripts_reads hindex c.advance _ hin rfl
    have hclose : c'.current.kind = .rbracket := current_kind hc'
    refine ⟨some (.subscript n, c'.advance.lastEnd), c'.advance, ?_, symbols_advance hc', _, rfl,
      .subscript hn⟩
    rw [trailer, accept_ite_of_ne (by rw [hkind]; decide), accept_ite_of_eq hkind, bind_of_ok hrun,
      expect_bind hclose]
    rfl
  | member id =>
    have hkind : c.current.kind = .dot := current_kind hc
    have hname : c.advance.symbols = Symbol.ident id :: y :: more := symbols_advance hc
    have hident : c.advance.current.kind = .ident := current_kind hname
    have htext : c.advance.current.text = id.text := current_text hname
    refine ⟨some (.member c.advance.current.text c.advance.current.start,
      c.advance.advance.lastEnd), c.advance.advance, ?_, symbols_advance hname, _, rfl, ?_⟩
    · rw [trailer, accept_ite_of_ne (by rw [hkind]; decide),
        accept_ite_of_ne (by rw [hkind]; decide), accept_ite_of_eq hkind, expect_bind hident]
      rfl
    · rw [htext]
      exact .member

/-- Behind a primary that has ended no trailer begins. -/
theorem trailer_none (hc : Precedence.primary.endedBy c.symbols = true) :
    trailer inner c = .ok (none, c) := by
  have hparen : c.current.kind ≠ .lparen := kind_ne_of_end hc rfl
  have hbracket : c.current.kind ≠ .lbracket := kind_ne_of_end hc rfl
  have hdot : c.current.kind ≠ .dot := kind_ne_of_end hc rfl
  rw [trailer, accept_ite_of_ne hparen, accept_ite_of_ne hbracket, accept_ite_of_ne hdot]
  rfl

/-- Trailers around a node have the shape of the printed ones around its expression. -/
theorem withTrailers_shapes {trails : List Trail} {found : List (Trailer × Position)} {n : Node}
    (hn : e.Shapes n) (h : List.Forall₂ (fun trail a => Trail.Shapes trail a.1) trails found) :
    (trails.foldl Trail.apply e).Shapes (withTrailers n found) := by
  induction h generalizing e n with
  | nil => exact hn
  | @cons trail a _ _ h _ ih =>
    obtain ⟨t, stop⟩ := a
    refine ih ?_
    cases h with
    | call hargs => exact .call hn hargs
    | subscript hindex => exact .subscript hn hindex
    | member => exact .attr hn

/-- An atom with its trailers. -/
def primary (inner : Inner) : Parse Node := do
  let base ← atom inner
  return withTrailers base (← many (trailer inner))

/-- The rule for primaries reads an expression back at the tightest place. -/
theorem primary_reads (hinner : ReadsWithin inner size) :
    ReadsShort (primary inner) .primary (size + 1) := by
  intro e hsize
  obtain ⟨base, head, trails, hatom, hsymbols, rfl⟩ := trailed_symbols e
  rw [hsymbols, length_append] at hsize
  rw [ReadsAt, hsymbols]
  refine Reads.many_behind goesOn rfl (fun c hc => trailer_none hc) (fun rest hrest => ?_)
    (atom_reads hinner hatom (by omega)) (fun trail htrail => ?_) (fun trail _ rest => ?_)
    (fun trail _ => ?_)
    fun n found c hn hfound => ⟨withTrailers n found, rfl, withTrailers_shapes hn hfound⟩
  · obtain ⟨y, more, rfl, -⟩ := Precedence.exists_cons_of_endedBy hrest
    rfl
  · have := length_le_flatMap (f := Trail.symbols) htrail
    exact trailer_reads hinner (by omega)
  · cases trail <;> rfl
  · cases trail <;> simp [Trail.symbols]

end NameInference.Grammar

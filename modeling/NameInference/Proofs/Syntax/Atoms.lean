import NameInference.Proofs.Expression.RoundTrip

/-!
# Expressions of one atom

An atom with nothing behind it that goes on, such as the end of the line, passes through every level
of the grammar as it is: no operator, trailer or further expression follows. The module of a line
with just an atom is the atom as an expression statement.
-/

namespace NameInference

namespace TokenKind

/-- Tokens with which an atom begins. -/
def startsAtom : TokenKind → Bool
  | ident | int | float | imag | string | bytes | boolLit | noneLit | ellipsis
  | lparen | lbracket | lbrace => true
  | _ => false

/-- Tokens with which no expression goes on. -/
def testEnds : List TokenKind := [newline, comma, rparen, colon, equal]

end TokenKind

namespace Grammar

open Parse TokenKind

variable {inner : Inner} {c c' : Cursor} {n : Node}

/-- An operand without an operator of the level behind it is all that a chain reads. -/
theorem chain_of_operand {operator? : TokenKind → Option BinaryOp} {operand : Parse Node}
    (h : operand c = .ok (n, c')) (hend : c'.current.kind ∈ testEnds)
    (hnone : ∀ k ∈ testEnds, operator? k = none) :
    chain operator? operand c = .ok (n, c') := by
  rw [chain, bind_of_ok h, bind_of_ok (many_of_none (by rw [kind_bind, hnone _ hend]; rfl))]
  rfl

theorem boolean_of_operand {op : BoolOp} {word : TokenKind} {operand : Parse Node}
    (h : operand c = .ok (n, c')) (hend : c'.current.kind ≠ word) :
    boolean op word operand c = .ok (n, c') := by
  rw [boolean, bind_of_ok h, bind_of_ok (many_of_none (behind_of_ne hend operand))]
  rfl

/-- What an atom is distinguished from by its first token. -/
theorem kind_ne_of_startsAtom {kind other : TokenKind} (h : kind.startsAtom = true)
    (hother : other.startsAtom = false) :
    kind ≠ other := by
  rintro rfl
  rw [h] at hother
  cases hother

section Levels

variable (hstart : c.current.kind.startsAtom = true) (hatom : atom inner c = .ok (n, c'))
  (hend : c'.current.kind ∈ testEnds)

include hstart hatom hend

theorem factor_of_atom : factor inner c = .ok (n, c') := by
  have hne {other : TokenKind} (hother : other ∉ testEnds) : c'.current.kind ≠ other :=
    fun h => hother (h ▸ hend)
  have hprimary : primary inner c = .ok (n, c') := by
    have htrailer : trailer inner c' = .ok (none, c') := by
      rw [trailer, accept_ite_of_ne (hne (by decide)), accept_ite_of_ne (hne (by decide)),
        accept_ite_of_ne (hne (by decide))]
      rfl
    rw [primary, bind_of_ok hatom, bind_of_ok (many_of_none htrailer)]
    rfl
  have hsign : c.current.kind.sign? = none := by
    generalize c.current.kind = kind at hstart
    cases kind <;> first | rfl | cases hstart
  rw [factor, start_bind, kind_bind, hsign]
  simp only
  rw [power_of_primary (kind_ne_of_startsAtom hstart rfl) hprimary,
    accept_bind_of_ne (hne (by decide))]
  rfl

theorem bitwiseOr_of_atom : bitwiseOr inner c = .ok (n, c') := by
  have hfactor := factor_of_atom hstart hatom hend
  have hproduct : multiplicative inner c = .ok (n, c') := chain_of_operand hfactor hend (by decide)
  have hsum : additive inner c = .ok (n, c') := chain_of_operand hproduct hend (by decide)
  have hshift : shift inner c = .ok (n, c') := chain_of_operand hsum hend (by decide)
  have hand : bitwiseAnd inner c = .ok (n, c') := chain_of_operand hshift hend (by decide)
  have hxor : bitwiseXor inner c = .ok (n, c') := chain_of_operand hand hend (by decide)
  exact chain_of_operand hxor hend (by decide)

theorem test_of_atom : test inner c = .ok (n, c') := by
  have hne {other : TokenKind} (hother : other ∉ testEnds) : c'.current.kind ≠ other :=
    fun h => hother (h ▸ hend)
  have hcompare : comparison inner c = .ok (n, c') := by
    have hnone : comparisonOp c' = .ok (none, c') := by
      simp only [testEnds, List.mem_cons, List.not_mem_nil, or_false] at hend
      rw [comparisonOp, kind_bind]
      rcases hend with h | h | h | h | h <;>
      · rw [h]
        rfl
    rw [comparison, bind_of_ok (bitwiseOr_of_atom hstart hatom hend),
      bind_of_ok (many_of_none (by rw [bind_of_ok hnone]; rfl))]
    rfl
  have hnot : notTest inner c = .ok (n, c') := by
    rw [notTest, start_bind, accept_bind_of_ne (kind_ne_of_startsAtom hstart rfl)]
    exact hcompare
  have hand : andTest inner c = .ok (n, c') := boolean_of_operand hnot (hne (by decide))
  have hor : orTest inner c = .ok (n, c') := boolean_of_operand hand (hne (by decide))
  have hlambda : c.current.kind ≠ .kwLambda := kind_ne_of_startsAtom hstart rfl
  rw [test, kind_bind, if_neg (by simpa using hlambda), bind_of_ok hor,
    accept_bind_of_ne (hne (by decide))]
  rfl

end Levels

section Statements

variable (hstart : c.current.kind.startsAtom = true)
  (hatom : atom (expressionWithin c.ahead) c = .ok (n, c')) (hend : c'.current.kind = .newline)

include hstart hatom hend

theorem yieldOrTests_of_atom : yieldOrTests c = .ok (n, c') := by
  have hyield : c.current.kind ≠ .kwYield := kind_ne_of_startsAtom hstart rfl
  have hstar : c.current.kind ≠ .star := kind_ne_of_startsAtom hstart rfl
  have htest : expression .test c = .ok (n, c') :=
    test_of_atom hstart hatom (by simp [hend, testEnds])
  -- A name is the whole atom, so what comes next is the end of the line.
  have hunbound : ¬ (c.current.kind == .ident && (c.rest.headD c.current).kind == .colonEqual) =
      true := by
    intro hbinds
    obtain ⟨hident, hnext⟩ :
        c.current.kind = .ident ∧ (c.rest.headD c.current).kind = .colonEqual := by
      simpa using hbinds
    rw [atom, kind_bind, hident] at hatom
    obtain rfl : c.advance = c' := congrArg Prod.snd (Except.ok.inj hatom)
    obtain ⟨current, rest, lastEnd⟩ := c
    cases rest with
    | nil => exact absurd (hident.symm.trans hnext) (by decide)
    | cons next rest => exact absurd (hend.symm.trans hnext) (by decide)
  have helement : element expression (expression .test) c = .ok (n, c') := by
    rw [element, kind_bind, if_neg (by simpa using hstar), namedOr, kind_bind, nextKind_bind,
      if_neg hunbound]
    exact htest
  rw [yieldOrTests, yieldOr, kind_bind, if_neg (by simpa using hyield), tests, testList,
    bind_of_ok helement, tupleAfter, kind_bind, hend]
  rfl

theorem expressionStmt_of_atom :
    expressionStmt c = .ok (.mk ⟨c.current.start, c'.lastEnd⟩ .load (.exprStmt n), c') := by
  have hstarts : c.current.kind.startsExpression = true := by
    generalize c.current.kind = kind at hstart
    cases kind <;> first | rfl | cases hstart
  exact expressionStmt_of_left hstarts (yieldOrTests_of_atom hstart hatom hend) hend

theorem statementLine_of_atom :
    statementLine c = .ok ([.mk ⟨c.current.start, c'.lastEnd⟩ .load (.exprStmt n)],
      c'.advance) := by
  have hsmall : smallStatement c = expressionStmt c := by
    rw [smallStatement, kind_bind]
    generalize c.current.kind = kind at hstart
    cases kind <;> first | rfl | cases hstart
  have hrule : statementRule (statementWithin c.ahead) c = simpleStatements c := by
    rw [statementRule, kind_bind]
    generalize c.current.kind = kind at hstart
    cases kind <;> first | rfl | cases hstart
  rw [statementLine, statementWithin, hrule]
  exact simpleStatements_of_small (hsmall.trans (expressionStmt_of_atom hstart hatom hend)) hend

end Statements

end Grammar

open Grammar Parse

/-- The module of a line that is one atom consists of the atom as an expression statement. -/
theorem Module.ofSource_of_atom {source : Source} {tokens : List Token} {symbols : List Symbol}
    {c' : Cursor} {n : Node} (htokens : Source.stackedTokens [source] = .ok tokens)
    (hsymbols : tokens.map Token.symbol = symbols ++ [Symbol.newline, Symbol.finish])
    (hstart : (Cursor.ofTokens tokens).current.kind.startsAtom = true)
    (hatom : atom (expressionWithin (Cursor.ofTokens tokens).ahead) (Cursor.ofTokens tokens) =
      .ok (n, c')) (hend : c'.symbols = [Symbol.newline, Symbol.finish]) :
    ∃ module rootSpan span, Module.ofSource source = .ok module ∧
      module.root = .mk rootSpan .load (.module [.mk span .load (.exprStmt n)]) := by
  have hline := statementLine_of_atom hstart hatom (Cursor.current_kind hend)
  have hdone : c'.advance.current.kind = .done := Cursor.current_kind (Cursor.symbols_advance hend)
  have hkind : (Cursor.ofTokens tokens).current.kind ∉ [.done, .newline] := by
    simp only [List.mem_cons, List.not_mem_nil, or_false, not_or]
    exact ⟨kind_ne_of_startsAtom hstart rfl, kind_ne_of_startsAtom hstart rfl⟩
  obtain ⟨module, rootSpan, hmodule, -, hroot⟩ :=
    ofSource_of_line htokens hsymbols hkind hline hdone
  exact ⟨module, rootSpan, _, hmodule, hroot⟩

end NameInference

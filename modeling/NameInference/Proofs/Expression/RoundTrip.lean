import NameInference.Proofs.Expression.Line
import NameInference.Proofs.Expression.Levels

/-!
# Parsing undoes printing

A line on which an expression is printed is a module of one expression statement. The rules for
statements leave it to the rule for expressions, which reads the printed symbols back.
-/

namespace NameInference

open List

variable {c' : Cursor}

namespace Parse

theorem many_of_none {α : Type} {step : Parse (Option α)} {c : Cursor}
    (h : step c = .ok (none, c)) :
    many step c = .ok ([], c) := by
  rw [many, manyWithin, bind_of_ok h]
  rfl

end Parse

namespace Grammar

open Parse

variable {c : Cursor} {rest : List Symbol}

theorem startsWith_of_bare {e : Expr} (hc : c.symbols = e.bare ++ rest) :
    Precedence.test.startsWith c.current.kind = true := by
  rw [← e.symbols_test] at hc
  exact startsWith_current hc

/-- The line has ended. -/
def atNewline (rest : List Symbol) : Bool := rest.head?.any (·.1 == .newline)

theorem kind_of_atNewline (h : atNewline c.symbols = true) : c.current.kind = .newline := by
  simpa [atNewline, Cursor.symbols, Token.symbol] using h

theorem endedBy_of_atNewline (h : atNewline rest = true) : Precedence.test.endedBy rest = true := by
  cases rest with
  | nil => cases h
  | cons s more =>
    have hs : s.1 = .newline := by simpa [atNewline] using h
    rw [Precedence.endedBy, hs]
    rfl

/-- A list of one expression is that expression. -/
theorem tests_reads (e : Expr) : Reads tests e.bare atNewline e.Shapes := by
  intro c rest hc hrest
  rw [← e.symbols_test] at hc
  obtain ⟨n, c', hn, rfl, hshape⟩ :=
    element_reads expression (expression_reads .test e) c rest hc (endedBy_of_atNewline hrest)
  refine ⟨n, c', ?_, rfl, hshape⟩
  rw [tests, testList, bind_of_ok hn, tupleAfter, kind_bind, kind_of_atNewline hrest]
  rfl

/-- The node is a statement that consists of the expression. -/
def IsStatement (e : Expr) (n : Node) : Prop :=
  ∃ span value, n = .mk span .load (.exprStmt value) ∧ e.Shapes value

/-- The kinds with which an expression begins. -/
theorem mem_of_startsWith {kind : TokenKind} (h : Precedence.test.startsWith kind = true) :
    kind ∈ [.ident, .int, .lparen, .minus, .plus, .tilde, .kwNot] := by
  revert h
  cases kind <;> decide

/-- At a symbol that begins an expression stands no keyword of a small statement. -/
theorem smallStatement_of_start (h : Precedence.test.startsWith c.current.kind = true) :
    smallStatement c = expressionStmt c := by
  have hkind := mem_of_startsWith h
  simp only [mem_cons, not_mem_nil, or_false] at hkind
  rw [smallStatement, kind_bind]
  rcases hkind with h | h | h | h | h | h | h <;>
  · rw [h]

/-- At such a symbol no compound statement begins. -/
theorem statementRule_of_start (statement : Parse (List Node))
    (h : Precedence.test.startsWith c.current.kind = true) :
    statementRule statement c = simpleStatements c := by
  have hkind := mem_of_startsWith h
  simp only [mem_cons, not_mem_nil, or_false] at hkind
  rw [statementRule, kind_bind]
  rcases hkind with h | h | h | h | h | h | h <;>
  · rw [h]

/-- At the end of a line nothing more belongs to an expression statement. -/
theorem expressionStmt_of_left {n : Node} (hstarts : c.current.kind.startsExpression = true)
    (hleft : yieldOrTests c = .ok (n, c')) (hend : c'.current.kind = .newline) :
    expressionStmt c = .ok (.mk ⟨c.current.start, c'.lastEnd⟩ .load (.exprStmt n), c') := by
  have hmore : many (behind .equal yieldOrTests) c' = .ok ([], c') :=
    many_of_none (behind_of_ne (by simp [hend]) _)
  rw [expressionStmt, token_bind, if_neg (by simp [hstarts])]
  beta_reduce
  rw [bind_of_ok hleft, accept_ite_of_ne (by simp [hend]), kind_bind, hend]
  simp only [TokenKind.augmented?]
  rw [bind_of_ok hmore]
  rfl

theorem expressionStmt_reads (e : Expr) :
    Reads expressionStmt e.bare atNewline (IsStatement e) := by
  intro c rest hc hrest
  have hstart : Precedence.test.startsWith c.current.kind = true :=
    startsWith_of_bare hc
  have hstarts : c.current.kind.startsExpression = true := by
    have hall : ∀ k ∈ [TokenKind.ident, .int, .lparen, .minus, .plus, .tilde, .kwNot],
        k.startsExpression = true := by
      decide
    exact hall _ (mem_of_startsWith hstart)
  have hyield : c.current.kind ≠ .kwYield := by
    intro h
    rw [h] at hstart
    cases hstart
  obtain ⟨n, c', hn, rfl, hshape⟩ := tests_reads e c rest hc hrest
  have hkind := kind_of_atNewline hrest
  have hleft : yieldOrTests c = .ok (n, c') := by
    rw [yieldOrTests, yieldOr, kind_bind, if_neg (by simpa using hyield), hn]
  exact ⟨_, c', expressionStmt_of_left hstarts hleft hkind, rfl, ⟨c.current.start, c'.lastEnd⟩, n,
    rfl, hshape⟩

/-- A line of one statement. -/
theorem simpleStatements_of_small {n : Node} (hsmall : smallStatement c = .ok (n, c'))
    (hend : c'.current.kind = .newline) : simpleStatements c = .ok ([n], c'.advance) := by
  rw [simpleStatements, bind_of_ok hsmall,
    bind_of_ok (many_of_none (by rw [accept_bind_of_ne (by simp [hend])]; rfl)), kind_bind,
    if_pos (by simp [hend]), expect_bind hend]
  rfl

/-- One expression on a line is a line of one statement. -/
theorem simpleStatements_reads (e : Expr) :
    Reads simpleStatements (e.bare ++ [Symbol.newline]) goesOn (fun found => ∃ n, found = [n] ∧
      IsStatement e n) := by
  intro c rest hc hrest
  obtain ⟨y, more, rfl⟩ := exists_cons_of_goesOn hrest
  rw [append_assoc] at hc
  have hstart : Precedence.test.startsWith c.current.kind = true :=
    startsWith_of_bare hc
  obtain ⟨n, c', hn, hc', hshape⟩ := expressionStmt_reads e c _ hc rfl
  have hkind : c'.current.kind = .newline := Cursor.current_kind hc'
  exact ⟨[n], c'.advance,
    simpleStatements_of_small ((smallStatement_of_start hstart).trans hn) hkind,
    Cursor.symbols_advance hc', n, rfl, hshape⟩

/-- A line that begins with an expression is left to the rule for simple statements. -/
theorem statementLine_of_start (h : Precedence.test.startsWith c.current.kind = true) :
    statementLine c = simpleStatements c := by
  rw [statementLine, statementWithin, statementRule_of_start _ h]

/-- Statements are lines up to the end; lines without tokens are passed over. -/
theorem statements_eq : ∃ step : Parse (Option (List Node)),
    statements = (many step >>= fun parts => pure parts.flatten) ∧
    (∀ c, c.current.kind = .done → step c = .ok (none, c)) ∧
    ∀ c found c', c.current.kind ≠ .done → c.current.kind ≠ .newline →
      statementLine c = .ok (found, c') → step c = .ok (some found, c') := by
  refine ⟨_, rfl, ?_, ?_⟩
  · intro c hdone
    rw [kind_bind, hdone]
    rfl
  · intro c found c' hdone hnewline hfound
    rw [kind_bind, if_neg (by simpa using hdone), accept_ite_of_ne hnewline, bind_of_ok hfound]
    rfl

/-- The statements of one line are all there are if the end follows. -/
theorem statements_of_line {found : List Node} (hahead : c.rest ≠ [])
    (hkind : c.current.kind ∉ [.done, .newline]) (hline : statementLine c = .ok (found, c'))
    (hend : c'.current.kind = .done) : statements c = .ok (found, c') := by
  obtain ⟨step, hstatements, hstop, hstep⟩ := statements_eq
  simp only [mem_cons, not_mem_nil, or_false, not_or] at hkind
  have hfirst := hstep c found c' hkind.1 hkind.2 hline
  obtain ⟨bound, hbound⟩ := Nat.exists_eq_succ_of_ne_zero (mt length_eq_zero_iff.mp hahead)
  -- One round takes the line, the next one stands at the end.
  have hmany : many step c = .ok ([found], c') := by
    rw [many, Cursor.ahead, hbound, manyWithin, bind_of_ok hfirst]
    simp only
    rw [manyWithin, bind_assoc, bind_of_ok (hstop _ hend)]
    rfl
  rw [hstatements, bind_of_ok hmany]
  simp [pure_eq]

end Grammar

namespace Module

/-- A source that has one line of statements is the module of them. -/
theorem ofSource_of_line {source : Source} {tokens : List Token} {symbols : List Symbol}
    {found : List Node} (htokens : Source.stackedTokens [source] = .ok tokens)
    (hsymbols : tokens.map Token.symbol = symbols ++ [Symbol.newline, Symbol.finish])
    (hkind : (Cursor.ofTokens tokens).current.kind ∉ [.done, .newline])
    (hline : Grammar.statementLine (Cursor.ofTokens tokens) = .ok (found, c'))
    (hend : c'.current.kind = .done) :
    ∃ module rootSpan, ofSource source = .ok module ∧ module.lines = source.lines ∧
      module.root = .mk rootSpan .load (.module found) := by
  have hlength := congrArg List.length hsymbols
  simp only [length_map, length_append, length_cons, length_nil] at hlength
  have hahead : (Cursor.ofTokens tokens).rest ≠ [] := by
    cases tokens with
    | nil => simp at hlength
    | cons first rest =>
      rintro rfl
      simp at hlength
  have hmodule : ofSource source = ofTokens tokens >>= fun module =>
      pure { module with file := source.file, lines := source.lines } := by
    rw [ofSource, htokens]
    rfl
  rw [hmodule, ofTokens, StateT.run, Grammar.statements_of_line hahead hkind hline hend]
  exact ⟨_, _, rfl, rfl, rfl⟩

/-- Parsing undoes printing: the module of a printed line consists of one expression statement, the
tree of which is the expression up to positions. -/
theorem ofSource_print (e : Expr) (file : Text) :
    ∃ module rootSpan span value, Module.ofSource ⟨e.print, file⟩ = .ok module ∧
      module.root = .mk rootSpan .load (.module [.mk span .load (.exprStmt value)]) ∧
      e.Shapes value := by
  obtain ⟨tokens, htokens, hsymbols⟩ := e.stackedTokens_print file
  have hcursor : (Cursor.ofTokens tokens).symbols = e.bare ++ [Symbol.newline] ++
      [Symbol.finish] := by
    cases tokens with
    | nil => simp at hsymbols
    | cons first rest =>
      rw [append_assoc]
      exact hsymbols
  have hstart : Precedence.test.startsWith (Cursor.ofTokens tokens).current.kind = true :=
    Grammar.startsWith_of_bare (by rwa [append_assoc] at hcursor)
  obtain ⟨_, c', hline, hend, n, rfl, span, value, rfl, hshape⟩ :=
    Grammar.simpleStatements_reads e (Cursor.ofTokens tokens) _ hcursor rfl
  rw [← Grammar.statementLine_of_start hstart] at hline
  have hkind : (Cursor.ofTokens tokens).current.kind ∉ [.done, .newline] := by
    have hall : ∀ k ∈ [TokenKind.ident, .int, .lparen, .minus, .plus, .tilde, .kwNot],
        k ∉ [.done, .newline] := by
      decide
    exact hall _ (Grammar.mem_of_startsWith hstart)
  obtain ⟨module, rootSpan, hmodule, -, hroot⟩ :=
    ofSource_of_line htokens hsymbols hkind hline (Cursor.current_kind hend)
  exact ⟨module, rootSpan, span, value, hmodule, hroot, hshape⟩

end Module

end NameInference

import NameInference.Syntax.Grammar.Statement
import NameInference.Proofs.Progress.Expression

/-!
# Statements take tokens

Every rule for a statement takes a token, and uses the rule for the statements of its blocks only
behind a token. A module is therefore read in finitely many steps, whatever the tokens are, and if
it is accepted, all tokens up to the end have been taken in order.
-/

namespace NameInference

namespace Grammar

open Parse

variable {K : TokenKind → Prop} {m n : Nat} {start : Position}

theorem stay_stmt (form : Form Node) : Agree K m (fun _ => 0) (stmt start form) (stmt start form) :=
  agree_spanFrom_bind fun _ => stay_pure _

theorem take_expression (level : Level) :
    Agree (fun _ => True) m (fun _ => 1) (expression level) (expression level) :=
  agreeWithin_expression level

theorem stay_expression (level : Level) : Stay n (expression level) (expression level) :=
  stay_inner agreeWithin_expression level

theorem stay_namedTest : Stay n namedTest namedTest := (take_namedOr agreeWithin_expression).stay

theorem stay_tests : Stay n tests tests := (take_testList agreeWithin_expression).stay

theorem take_yieldOrTests : Take n yieldOrTests yieldOrTests :=
  take_yieldOr agreeWithin_expression (take_testList agreeWithin_expression)

theorem stay_yieldOrTests : Stay n yieldOrTests yieldOrTests := take_yieldOrTests.stay.pred

theorem stay_bound (what : Expectation) : Stay n (bound what) (bound what) := stay_expect.map

/-- Elements between commas, at least one. -/
theorem stay_oneOrMore {element : Parse Node} (h : Stay n element element) :
    Stay n (oneOrMore element) (oneOrMore element) :=
  stay_betweenCommas h

theorem stay_declaredNames : Stay n declaredNames declaredNames := stay_oneOrMore stay_expect.map

theorem stay_dottedTail : Stay n dottedTail dottedTail :=
  stay_many (step_behind (by decide) stay_expect.map)

theorem stay_importedItem (first : Token) (path : List Text) :
    Stay n (importedItem first path) (importedItem first path) := by
  refine (stay_behind (stay_bound _)).stay_bind fun binding => ?_
  split
  · exact stay_stmt _
  · exact stay_stmt _

theorem stay_dottedAlias : Stay n dottedAlias dottedAlias :=
  stay_expect_bind fun _ => stay_dottedTail.stay_bind fun _ => stay_importedItem _ _

theorem stay_importLevel : Stay n importLevel importLevel := by
  refine (stay_many (agree_kind_bind fun k _ => .ite (fun hdot => ?_) fun _ =>
    .ite (fun hdots => ?_) fun _ => ?_)).map
  · exact (agree_take.of_ne_done (ne_done_of_beq hdot nofun)).map.step
  · exact (agree_take.of_ne_done (ne_done_of_beq hdots nofun)).map.step
  · exact agree_pure _ rfl

theorem stay_importedNames : Stay n importedNames importedNames := by
  refine stay_accept.stay_bind fun isOpen => (stay_betweenCommas ?_).stay_bind fun names => ?_
  · exact stay_expect_bind fun _ => stay_importedItem _ _
  refine .ite (fun _ => stay_expect_bind fun _ => ?_) fun _ => ?_
  all_goals exact .ite (fun _ => agree_reject_bind nofun) fun _ => stay_pure _

theorem take_raiseStmt : TakeAt (· ≠ .done) n raiseStmt raiseStmt := by
  refine agree_take.take_bind fun word => agree_kind_bind fun _ _ => .ite (fun _ => ?_) fun _ =>
    stay_stmt _
  refine (stay_expression .test).at.stay_bind fun _ => ?_
  exact (stay_behind (stay_expression .test)).stay_bind fun _ => stay_stmt _

theorem take_delStmt : TakeAt (· ≠ .done) n delStmt delStmt := by
  refine agree_take.take_bind fun word =>
    (stay_betweenCommas (stay_expression .bitwiseOr).map).stay_bind fun _ => ?_
  exact .ite (fun _ => agree_reject_bind nofun) fun _ => stay_stmt _

theorem take_importStmt : TakeAt (· ≠ .done) n importStmt importStmt :=
  agree_take.take_bind fun _ => (stay_oneOrMore stay_dottedAlias).stay_bind fun _ => stay_stmt _

theorem take_importFrom : TakeAt (· ≠ .done) n importFrom importFrom := by
  refine agree_take.take_bind fun word => stay_importLevel.stay_bind fun level =>
    agree_kind_bind fun k _ => ?_
  refine .ite (fun _ => stay_take.at.stay_bind fun _ => stay_dottedTail.stay_bind fun _ => ?_)
    fun _ => ?_
  all_goals
    refine (stay_pure _).stay_bind fun _ => .ite (fun _ => agree_reject_bind nofun) fun _ => ?_
    refine stay_expect_bind fun _ => stay_accept_ite (stay_stmt _) ?_
    exact stay_importedNames.stay_bind fun _ => stay_stmt _

theorem take_expressionStmt : Take n expressionStmt expressionStmt := by
  refine agree_token_bind fun first _ => .ite (fun _ => agree_reject_bind nofun) fun _ => ?_
  refine take_yieldOrTests.at.take_bind fun left =>
    stay_accept_ite ?_ (agree_kind_bind fun k _ => ?_)
  · refine (stay_expression .test).stay_bind fun _ => ?_
    exact (stay_behind stay_yieldOrTests).stay_bind fun _ => stay_stmt _
  · split
    · exact stay_take.at.stay_bind fun _ => stay_yieldOrTests.stay_bind fun _ => stay_stmt _
    · refine (stay_many (step_behind (by decide) stay_yieldOrTests)).at.stay_bind fun more => ?_
      exact .ite (fun _ => stay_stmt _) fun _ => stay_stmt _

theorem take_wordStmt (form : Form Node) : TakeAt (· ≠ .done) n (wordStmt form) (wordStmt form) :=
  agree_take.take_bind fun _ => stay_stmt _

theorem take_smallStatement : Take n smallStatement smallStatement := by
  refine agree_kind_bind fun k _ => ?_
  split
  · exact (take_wordStmt _).of_ne_done (by decide)
  · exact (take_wordStmt _).of_ne_done (by decide)
  · exact (take_wordStmt _).of_ne_done (by decide)
  · refine (agree_take.of_ne_done (by decide)).take_bind fun word => agree_kind_bind fun k _ => ?_
    refine .ite (fun _ => ?_) fun _ => (stay_pure _).stay_bind fun _ => stay_stmt _
    rw [← bind_pure_comp]
    exact stay_tests.map.at.stay_bind fun _ => stay_stmt _
  · exact take_raiseStmt.of_ne_done (by decide)
  · exact (agree_take.of_ne_done (by decide)).take_bind fun _ =>
      stay_declaredNames.stay_bind fun _ => stay_stmt _
  · exact (agree_take.of_ne_done (by decide)).take_bind fun _ =>
      stay_declaredNames.stay_bind fun _ => stay_stmt _
  · exact take_delStmt.of_ne_done (by decide)
  · refine (agree_take.of_ne_done (by decide)).take_bind fun _ =>
      (stay_expression .test).stay_bind fun _ => ?_
    exact (stay_behind (stay_expression .test)).stay_bind fun _ => stay_stmt _
  · exact take_importStmt.of_ne_done (by decide)
  · exact take_importFrom.of_ne_done (by decide)
  · exact take_expressionStmt.at

theorem take_simpleStatements : Take n simpleStatements simpleStatements := by
  refine take_smallStatement.take_bind fun first => (stay_many ?_).stay_bind fun more =>
    agree_kind_bind fun k _ => ?_
  · refine step_accept_bind nofun (agree_kind_bind fun k _ => .ite (fun _ => stay_pure _) fun _ =>
      ?_) (agree_pure _ rfl)
    exact take_smallStatement.stay.pred.map.at
  · exact .ite (fun _ => stay_expect_bind fun _ => stay_pure _) fun _ => stay_pure _

section Blocks

variable {statement statement' : Parse (List Node)}
  (h : Agree (fun _ => True) n (fun _ => 1) statement statement')

include h

theorem stay_suite : Stay n (suite statement) (suite statement') := by
  refine agree_accept_bind (stay_take.at.stay_bind fun _ => stay_expect_bind fun _ => ?_)
    take_simpleStatements.stay.pred
  refine (stay_many (step_accept_bind (by decide) (stay_pure _) ?_)).map
  refine agree_kind_bind fun k _ => .ite (fun _ => agree_pure _ rfl) fun _ => ?_
  exact step_accept_bind nofun (stay_pure _) h.map.step.at

theorem stay_block : Stay n (block statement) (block statement') :=
  stay_expect_bind fun _ => stay_suite h

theorem stay_optionalBlock {word : TokenKind} :
    Stay n (optionalBlock statement word) (optionalBlock statement' word) :=
  stay_accept_ite (stay_block h) (stay_pure _)

theorem take_functionDef (decorators : List Node) :
    TakeAt K n (functionDef statement decorators) (functionDef statement' decorators) := by
  refine agree_start_bind fun start => stay_accept.stay_bind fun isAsync => ?_
  refine (agree_expect (by decide)).take_bind fun _ => (stay_bound _).stay_bind fun name => ?_
  refine stay_expect_bind fun _ => ?_
  refine (stay_params agreeWithin_expression _ _).stay_bind fun params => ?_
  refine stay_expect_bind fun _ => ?_
  refine (stay_behind (stay_expression .test)).stay_bind fun returns => ?_
  exact stay_expect_bind fun colon => (stay_suite h).stay_bind fun _ => stay_stmt _

theorem take_classDef (decorators : List Node) :
    TakeAt K n (classDef statement decorators) (classDef statement' decorators) := by
  refine agree_start_bind fun start => (agree_expect (by decide)).take_bind fun _ => ?_
  refine (stay_bound _).stay_bind fun name => stay_accept.stay_bind fun isOpen => ?_
  refine .ite (fun _ => (stay_arguments agreeWithin_expression).stay_bind fun args => ?_) fun _ =>
    ?_
  · refine stay_expect_bind fun _ => (stay_pure args).stay_bind fun _ => ?_
    exact stay_expect_bind fun colon => (stay_suite h).stay_bind fun _ => stay_stmt _
  · refine (stay_pure _).stay_bind fun _ => stay_expect_bind fun colon => ?_
    exact (stay_suite h).stay_bind fun _ => stay_stmt _

theorem take_decorated : TakeAt (· = .atSign) n (decorated statement) (decorated statement') := by
  refine (take_many ?_ ?_).take_bind fun decorators => agree_kind_bind fun k _ =>
    agree_nextKind_bind fun next => ?_
  · refine step_accept_bind nofun ?_ (agree_pure _ rfl)
    exact stay_namedTest.stay_bind fun _ => stay_expect.map
  · -- Decorators end at the first token that does not begin another one.
    intro c c' hstep hat
    by_cases hc : c.current.kind = .atSign
    · rw [accept_bind_of_eq hc] at hstep
      obtain ⟨_, _, _, hstep⟩ := bind_eq_ok hstep
      obtain ⟨_, _, _, hstep⟩ := bind_eq_ok hstep
      cases hstep
    · rw [accept_bind_of_ne hc] at hstep
      cases hstep
      exact hc hat
  · refine .ite (fun _ => (take_functionDef h _).stay.pred) fun _ =>
      .ite (fun _ => (take_classDef h _).stay.pred) fun _ => ?_
    exact agree_reject nofun

theorem take_branch : TakeAt (· ≠ .done) n (branch statement) (branch statement') :=
  agree_take.take_bind fun _ => stay_namedTest.stay_bind fun _ => (stay_block h).map

theorem take_ifStmt : TakeAt (· ≠ .done) n (ifStmt statement) (ifStmt statement') := by
  refine (take_branch h).take_bind fun first =>
    (stay_many (agree_kind_bind fun k _ => ?_)).stay_bind fun more => ?_
  · refine .ite (fun helif => ?_) fun _ => agree_pure _ rfl
    refine (take_first (ne_done_of_beq helif nofun) fun _ => ?_).map.step
    exact stay_namedTest.stay_bind fun _ => (stay_block h).map
  · refine (stay_optionalBlock h).stay_bind fun orElse => ?_
    exact agree_spanFrom_bind fun _ => stay_pure _

theorem take_whileStmt : TakeAt (· ≠ .done) n (whileStmt statement) (whileStmt statement') :=
  (take_branch h).take_bind fun _ => (stay_optionalBlock h).stay_bind fun _ => stay_stmt _

theorem take_forStmt : TakeAt K n (forStmt statement) (forStmt statement') := by
  refine agree_start_bind fun start => stay_accept.stay_bind fun isAsync => ?_
  refine (agree_expect (by decide)).take_bind fun _ => ?_
  refine (stay_targetList agreeWithin_expression).stay_bind fun target =>
    stay_expect_bind fun _ => ?_
  refine stay_tests.stay_bind fun iterable => (stay_block h).stay_bind fun body => ?_
  exact (stay_optionalBlock h).stay_bind fun _ => stay_stmt _

theorem take_handler {k : TokenKind} (hk : (k == .kwExcept) = true) :
    Agree (· = k) n (fun _ => 1) (handler statement) (handler statement') := by
  refine take_first (ne_done_of_beq hk nofun) fun word => agree_kind_bind fun k _ =>
    .ite (fun _ => ?_) fun _ => ?_
  · exact (stay_pure _).stay_bind fun _ => (stay_block h).stay_bind fun _ => stay_stmt _
  · refine (stay_expression .test).at.stay_bind fun type => ?_
    refine (stay_behind (stay_bound _)).stay_bind fun target => ?_
    exact (stay_pure _).stay_bind fun _ => (stay_block h).stay_bind fun _ => stay_stmt _

theorem take_tryStmt : TakeAt (· ≠ .done) n (tryStmt statement) (tryStmt statement') := by
  refine agree_take.take_bind fun word => (stay_block h).stay_bind fun body => ?_
  refine (stay_many (agree_kind_bind fun k _ => ?_)).stay_bind fun handlers => ?_
  · exact .ite (fun hexcept => (take_handler h hexcept).map.step) fun _ => agree_pure _ rfl
  · refine .ite (fun _ => (stay_pure _).stay_bind fun orElse => ?_) fun _ =>
      (stay_optionalBlock h).stay_bind fun orElse => ?_
    all_goals
      refine (stay_optionalBlock h).stay_bind fun final => ?_
      exact .ite (fun _ => agree_reject_bind nofun) fun _ => stay_stmt _

omit h in
theorem stay_withItem : Stay n withItem withItem := by
  refine agree_start_bind fun start => (stay_expression .test).stay_bind fun manager => ?_
  exact (stay_behind (stay_expression .bitwiseOr).map).stay_bind fun _ => stay_stmt _

theorem take_withStmt : TakeAt K n (withStmt statement) (withStmt statement') := by
  refine agree_start_bind fun start => stay_accept.stay_bind fun isAsync => ?_
  refine (agree_expect (by decide)).take_bind fun _ =>
    (stay_oneOrMore stay_withItem).stay_bind fun items => ?_
  exact (stay_block h).stay_bind fun _ => stay_stmt _

/-- What stands on a line takes a token, and does what the rule for the statements of blocks makes
it do behind it. -/
theorem take_statementRule : Take n (statementRule statement) (statementRule statement') := by
  refine agree_kind_bind fun k _ => ?_
  split
  · exact agree_reject nofun
  · exact (take_decorated h).map
  · exact (take_functionDef h _).map
  · exact (take_classDef h _).map
  · exact ((take_ifStmt h).of_ne_done (by decide)).map
  · exact ((take_whileStmt h).of_ne_done (by decide)).map
  · exact (take_forStmt h).map
  · exact ((take_tryStmt h).of_ne_done (by decide)).map
  · exact (take_withStmt h).map
  · refine agree_nextKind_bind fun next => ?_
    split
    · exact (take_functionDef h _).map
    · exact (take_forStmt h).map
    · exact (take_withStmt h).map
    · exact (agree_take.of_ne_done (by decide)).take_bind fun _ => agree_reject nofun
  · exact take_simpleStatements.at

end Blocks

/-- The rule for statements as a family of one. -/
theorem agreeAll_statementRule {p q : Unit → Parse (List Node)} (h : AgreeAll n p q) :
    AgreeAll (n + 1) (fun _ : Unit => statementRule (p ())) fun _ => statementRule (q ()) :=
  fun _ => take_statementRule (h ())

theorem agree_statementLine : Agree (fun _ => True) n (fun _ => 1) statementLine statementLine :=
  agreeAll_closed (fun depth _ => statementWithin depth) (fun _ => statementLine)
    agreeAll_statementRule (fun _ => rfl) (fun _ _ => rfl) ()

theorem statementRule_eq_statementLine {statement : Parse (List Node)} {c : Cursor}
    (hc : Terminated c.tokens)
    (h : ∀ c', Terminated c'.tokens → c'.ahead < c.ahead → statement c' = statementLine c') :
    statementRule statement c = statementLine c :=
  rule_eq_closed (fun depth _ => statementWithin depth) (fun _ => statementLine)
    agreeAll_statementRule (fun _ => rfl) (fun _ _ => rfl) (fun _ => statement) hc (fun _ => h) ()

theorem stays_statements : Stays n statements := by
  refine (stay_many (agree_kind_bind fun k _ => .ite (fun _ => agree_pure _ rfl) fun _ => ?_)).map
  exact step_accept_bind nofun (stay_pure _) agree_statementLine.map.step.at

/-- The statements of a module are read up to the end. -/
theorem kind_of_statements {c c' : Cursor} {body : List Node} (h : statements c = .ok (body, c')) :
    c'.current.kind = .done := by
  obtain ⟨parts, _, hmany, hpure⟩ := bind_eq_ok h
  cases hpure
  obtain ⟨last, hlast⟩ := exists_none_of_many hmany
  rw [kind_bind] at hlast
  by_cases hdone : last.current.kind = .done
  · simp only [hdone, beq_self_eq_true, if_true] at hlast
    cases hlast
    exact hdone
  · rw [if_neg (by simpa using hdone)] at hlast
    by_cases hnewline : last.current.kind = .newline
    · rw [accept_bind_of_eq hnewline] at hlast
      cases hlast
    · rw [accept_bind_of_ne hnewline] at hlast
      obtain ⟨_, _, _, hlast⟩ := bind_eq_ok hlast
      cases hlast

/-- What the rules do at a cursor is determined by what they do with fewer tokens ahead, and they
take a token. -/
structure Descends (c : Cursor) : Prop where
  expression_eq : ∀ inner : Inner,
    (∀ level c', Terminated c'.tokens → c'.ahead < c.ahead → inner level c' = expression level c') →
    ∀ level, rule inner level c = expression level c
  statement_eq : ∀ statement : Parse (List Node),
    (∀ c', Terminated c'.tokens → c'.ahead < c.ahead → statement c' = statementLine c') →
    statementRule statement c = statementLine c
  expression_ends : ∀ level, Ends c (fun _ => 1) (expression level c)
  statement_ends : Ends c (fun _ => 1) (statementLine c)

theorem descends {c : Cursor} (hc : Terminated c.tokens) : Descends c where
  expression_eq _ h := rule_eq_expression hc h
  statement_eq _ h := statementRule_eq_statementLine hc h
  expression_ends level := (take_expression level c hc (Nat.lt_succ_self _) trivial).2
  statement_ends := (agree_statementLine c hc (Nat.lt_succ_self _) trivial).2

end Grammar

namespace Module

/-- How the reading of a module may end: all tokens but the end have been taken, one after the
other, or one of them is rejected, and not because the depth or a repetition ran out. -/
def Ended (tokens : List Token) : Except SyntaxError Module → Prop
  | .ok m => ∃ body last, Grammar.statements (Cursor.ofTokens tokens) = .ok (body, last) ∧
      (Cursor.ofTokens tokens).Takes tokens.dropLast last ∧ last.current.kind = .done ∧
      m.root.form = .module body
  | .error e => ∃ t ∈ tokens, ∃ fault, fault ≠ .nestingTooDeep ∧ e = t.rejection fault

theorem ended_ofTokens {tokens : List Token} (h : Terminated tokens) :
    Ended tokens (ofTokens tokens) := by
  have htokens : (Cursor.ofTokens tokens).tokens = tokens := by
    obtain ⟨before, last, rfl, -⟩ := h
    cases before <;> rfl
  have hterminated : Terminated (Cursor.ofTokens tokens).tokens := htokens.symm ▸ h
  obtain ⟨-, hends⟩ := Grammar.stays_statements _ hterminated (Nat.lt_succ_self _) trivial
  cases hrun : Grammar.statements (Cursor.ofTokens tokens) with
  | error e =>
    rw [hrun] at hends
    rw [ofTokens, StateT.run, hrun]
    obtain ⟨t, ht, hrejects⟩ := hends
    exact ⟨t, htokens ▸ ht, hrejects⟩
  | ok r =>
    obtain ⟨body, last⟩ := r
    rw [hrun] at hends
    rw [ofTokens, StateT.run, hrun]
    obtain ⟨ts, htakes, -⟩ := hends
    have hdone := Grammar.kind_of_statements hrun
    have hrest : last.rest = [] := (htakes.terminated hterminated).kind_eq_done_iff.mp hdone
    have hts : tokens.dropLast = ts := by
      rw [← htokens, htakes.tokens_eq, Cursor.tokens, hrest, List.dropLast_concat]
    exact ⟨body, last, hrun, hts ▸ htakes, hdone, rfl⟩

/-- Tokens that end with the only end token are read in finitely many steps, and to the last. The
reading gives a module, and then every token but the end has been taken, each once and in order; or
it rejects one of the tokens. At each of the tokens every rule that accepts takes one, and what it
does follows from what the rules do with fewer tokens ahead, so neither their nesting nor a
repetition can go on without taking tokens. -/
theorem ofTokens_takes_all {tokens : List Token} (h : Terminated tokens) :
    Ended tokens (ofTokens tokens) ∧
    ∀ before t after stop, tokens = before ++ t :: after → Grammar.Descends ⟨t, after, stop⟩ := by
  refine ⟨ended_ofTokens h, ?_⟩
  rintro before t after stop rfl
  exact Grammar.descends h.of_append

/-- A conditional statement on one line, and its end. -/
theorem ofTokens_takes_all_conditional :
    let token (kind : TokenKind) : Token := { (default : Token) with kind }
    let body := [TokenKind.colon, .kwPass, .done].map token
    let tokens := [TokenKind.kwIf, .lparen, .ident].map token ++ token .rparen :: body
    Terminated tokens ∧ (ofTokens tokens).isOk = true ∧ Ended tokens (ofTokens tokens) ∧
      Grammar.Descends ⟨token .rparen, body, ⟨1, 1⟩⟩ := by
  intro token body tokens
  have hterminated : Terminated tokens := ⟨tokens.dropLast, token .done, rfl, rfl, by decide⟩
  obtain ⟨hended, hdescends⟩ := ofTokens_takes_all hterminated
  exact ⟨hterminated, by decide, hended, hdescends _ _ _ _ rfl⟩

end Module

end NameInference

import NameInference.Proofs.Progress.Statement
import NameInference.Proofs.Span.Expression

/-!
# Where statements stand

Statements bind what stands in front of an assignment, behind `for`, `as`, `import`, `def` and
`class`, and nothing else. What opens a block encloses its statements, and the colon of a definition
stands between its header and its body. Behind the colon of a block an indent is demanded, and every
line up to the dedent gives a statement, so a block is empty only if the dedent follows at once.
-/

namespace NameInference.Grammar

open List Parse

variable {c c' : Cursor} {what : Expectation} {body : List Node}

variable [Reading] {lo hi start : Position} {nodes : List (Role × Node)} {role : Role}
  {form : Form Node}

theorem silent_stmt : Silent (stmt start form) := by
  intro c n c' hc hrun
  cases hrun
  exact ⟨hc, le_rfl⟩

theorem follows_stmt (hlt : start < lo) (hparts : form.roles .statement = nodes)
    (hkind : form.isStatement = true) (hblock : form.block? = none) :
    Follows lo nodes (stmt start form) (ReadAs .statement start) :=
  .span fun _ h => h.statement hlt.le (hlt.trans_le h.le) hparts hkind
    (Form.colon?_of_block? hblock) (by simp [hblock])

theorem follows_stmt_at {first : Role × Node} {more : List (Role × Node)}
    (hparts : form.roles .statement = first :: more) (hkind : form.isStatement = true)
    (hblock : form.block? = none) :
    Follows start (first :: more) (stmt start form) (ReadAs .statement start) :=
  .span fun _ h => h.statement le_rfl (h.lt_of_mem mem_cons_self) hparts hkind
    (Form.colon?_of_block? hblock) (by simp [hblock])

theorem namedTest_opens : Opens .expression namedTest := namedOr_opens expression_opens

theorem tests_opens : Opens .expression tests := testList_opens expression_opens

theorem yieldOrTests_opens : Opens .expression yieldOrTests :=
  yieldOr_opens expression_opens tests_opens

theorem lays_bound (what : Expectation) : Lays (bound what) fun n => [(.bound, n)] :=
  (lays_name .bound).bind fun _ _ => .pure fun _ h => h

theorem lays_oneOrMore {element : Parse Node} (h : Lays element fun n => [(role, n)]) :
    Lays (oneOrMore element) fun ns => ns.map (role, ·) := by
  rw [oneOrMore]
  simpa using lays_betweenCommas h

theorem lays_declaredNames : Lays declaredNames fun ns => ns.map (.declared, ·) :=
  lays_oneOrMore ((lays_name .declared).bind fun _ _ => .pure fun _ h => h)

theorem silent_behind {α : Type} {p : Parse α} (k : TokenKind) (h : Silent p) :
    Silent (behind k p) :=
  (silent_accept k).bind fun _ => .ite (h.bind fun _ => silent_pure _) (silent_pure _)

theorem silent_dottedTail : Silent dottedTail :=
  silent_many (silent_behind .dot ((silent_expect _ _).bind fun _ => silent_pure _))

/-- An imported item covers the name it begins with and the name it is bound to. -/
theorem follows_importedItem (first : Token) (path : List Text) :
    Follows first.start [(.bound, first.toName .store)] (importedItem first path)
    (ReadAs .item first.start) := by
  refine .bind (lays_behind .kwAs (lays_bound _)) fun binding => ?_
  split
  · exact .span fun hi h => h.tail.node (.refl _) le_rfl (h.lt_of_mem mem_cons_self) rfl
      (.item ..) rfl nofun
  · exact .span fun hi h => h.node (.refl _) le_rfl (h.lt_of_mem mem_cons_self) rfl
      (.item ..) rfl nofun

/-- An item that begins with an identifier. -/
theorem lays_item {f : Token → Parse Node}
    (h : ∀ t, Follows t.start [(.bound, t.toName .store)] (f t) (ReadAs .item t.start)) :
    Lays (expect .ident what >>= f) fun n => [(.item, n)] :=
  (lays_name .bound).bind fun t _ => .focus rfl fun hle => (h t).mono fun _ _ hn =>
    hn.mono hle le_rfl

theorem lays_dottedAlias : Lays dottedAlias fun n => [(.item, n)] :=
  lays_item fun first => .silent silent_dottedTail fun _ => follows_importedItem first _

theorem silent_importLevel : Silent importLevel := by
  refine (silent_many ?_).bind fun dots => silent_pure _
  refine silent_kind.bind fun kind => .ite ?_ (.ite ?_ (silent_pure _))
  · exact silent_take.bind fun _ => silent_pure _
  · exact silent_take.bind fun _ => silent_pure _

theorem lays_importedNames : Lays importedNames fun ns => ns.map (.item, ·) := by
  refine lays_of_follows fun lo => .silent (silent_accept _) fun parenthesized => ?_
  refine .bind (lays_betweenCommas (lays_item fun name => follows_importedItem name _)) fun names =>
    .ite ?_ ?_
  · refine .expect fun _ => .ite .reject_bind ?_
    exact .pure fun hi h => by simpa using h
  · refine .ite .reject_bind ?_
    exact .pure fun hi h => by simpa using h

theorem raiseStmt_begins : Begins .statement raiseStmt := by
  refine begins_take fun word hlt => .kind_ite ?_ ?_
  · refine .bind (expression_opens .test).lays fun exception => ?_
    refine .bind (lays_behind .kwFrom (expression_opens .test).lays) fun cause => ?_
    exact follows_stmt hlt (by simp [Form.roles, Form.parts]) rfl rfl
  · exact follows_stmt hlt rfl rfl rfl

theorem delStmt_begins : Begins .statement delStmt := by
  have htarget : Lays (do return (← expression .bitwiseOr).withUsage .del) fun n =>
    [(.expression, n)] :=
    (expression_opens .bitwiseOr).lays.bind fun _ _ => .pure fun _ h =>
      h.replace (.cons .deleted .nil)
  refine begins_take fun word hlt => .bind (lays_betweenCommas htarget) fun targets => .ite ?_ ?_
  · exact .reject_bind
  · exact follows_stmt hlt (by simp [Form.roles, Form.parts]) rfl rfl

theorem importStmt_begins : Begins .statement importStmt :=
  begins_take fun _ hlt => .bind (lays_oneOrMore lays_dottedAlias) fun _ =>
    follows_stmt hlt rfl rfl rfl

theorem importFrom_begins : Begins .statement importFrom := by
  refine begins_take fun word hlt => .silent silent_importLevel fun level =>
    .silent silent_kind fun kind => ?_
  refine .ite (.silent silent_take fun first => .silent silent_dottedTail fun more => .pure_bind ?_)
    (.pure_bind ?_)
  all_goals
    refine .ite .reject_bind (.expect fun _ => .accept_ite ?_ ?_)
    · exact follows_stmt hlt rfl rfl rfl
    · exact .bind lays_importedNames fun names => follows_stmt hlt rfl rfl rfl

/-- The targets and the value of a chain of assignments stand where its expressions stand. -/
theorem arranged_splitChain {first : Node} {more : List Node}
    (h : Arranged lo (expressions (first :: more)) hi) :
    Arranged lo ((splitChain first more).1.map (.target, ·) ++
      [(.expression, (splitChain first more).2)]) hi := by
  refine h.replace ?_
  clear h
  induction more generalizing first with
  | nil => exact .cons (.refl _) .nil
  | cons next rest ih => exact .cons .bound ih

theorem expressionStmt_opens : Opens .statement expressionStmt := by
  intro c n c' hc hrun
  rw [expressionStmt, token_bind] at hrun
  split at hrun
  · obtain ⟨_, middle, hreject, -⟩ := bind_eq_ok hrun
    exact absurd hreject reject_ne_ok
  obtain ⟨left, middle, hleft, hrun⟩ := bind_eq_ok hrun
  obtain ⟨hmiddle, hvisible, hstands⟩ := yieldOrTests_opens hc hleft
  refine (Follows.run hmiddle hstands hrun ?_).imp id fun hn => ⟨hvisible, hn⟩
  refine .accept_ite ?_ ?_
  · refine .replace (.cons .bound .nil) (.bind (expression_opens .test).lays fun hint => ?_)
    refine .bind (lays_behind .equal yieldOrTests_opens.lays) fun value => ?_
    exact follows_stmt_at (by simp [Form.roles]) rfl rfl
  refine .silent silent_kind fun kind => ?_
  split
  · refine .silent silent_take fun _ =>
      .replace (.cons .bound .nil) (.bind yieldOrTests_opens.lays fun value => ?_)
    exact follows_stmt_at rfl rfl rfl
  · refine .bind (lays_many (lays_behind .equal yieldOrTests_opens.lays)) fun more => .ite ?_ ?_
    · exact .span fun hi h => h.head.statement le_rfl (h.lt_of_mem mem_cons_self) rfl rfl rfl
        (by rintro ⟨⟩)
    · refine .span fun hi h => ?_
      have hall : Arranged c.current.start (expressions (left :: more)) hi := by simpa using h
      exact (arranged_splitChain hall).statement le_rfl (h.lt_of_mem mem_cons_self)
        (by simp [Form.roles]) rfl rfl (by rintro ⟨⟩)

theorem smallStatement_opens : Opens .statement smallStatement := by
  refine opens_kind fun k => ?_
  split
  · exact (begins_take fun word hlt => follows_stmt hlt rfl rfl rfl).at rfl
  · exact (begins_take fun word hlt => follows_stmt hlt rfl rfl rfl).at rfl
  · exact (begins_take fun word hlt => follows_stmt hlt rfl rfl rfl).at rfl
  · refine Begins.at (begins_take fun word hlt => .kind_ite ?_ ?_) rfl
    · exact .bind (lays_some tests_opens.lays) fun value => follows_stmt hlt rfl rfl rfl
    · exact .pure_bind (follows_stmt hlt rfl rfl rfl)
  · exact raiseStmt_begins.at rfl
  · refine Begins.at (begins_take fun word hlt => .bind lays_declaredNames fun names => ?_) rfl
    exact follows_stmt hlt rfl rfl rfl
  · refine Begins.at (begins_take fun word hlt => .bind lays_declaredNames fun names => ?_) rfl
    exact follows_stmt hlt rfl rfl rfl
  · exact delStmt_begins.at rfl
  · refine Begins.at (begins_take fun word hlt => .bind (expression_opens .test).lays fun test =>
      ?_) rfl
    refine .bind (lays_behind .comma (expression_opens .test).lays) fun message => ?_
    exact follows_stmt hlt (by simp [Form.roles, Form.parts]) rfl rfl
  · exact importStmt_begins.at rfl
  · exact importFrom_begins.at rfl
  · exact expressionStmt_opens.at

theorem lays_simpleStatements : Lays simpleStatements stmts := by
  refine smallStatement_opens.lays.bind fun first lo => .bind (lays_nodes .statement ?_) fun more =>
    ?_
  · refine lays_of_follows fun lo => .accept_ite (.pure fun hi h => h) ?_
    refine .kind_ite (.pure fun hi h => h) ?_
    exact .bind smallStatement_opens.lays fun n => .pure fun hi h => h
  · refine .kind_ite ?_ ?_
    · exact .expect fun _ => .pure fun hi h => h
    · exact .pure fun hi h => h

/-- The statements of lines one after the other. -/
theorem lays_lines {step : Parse (Option (List Node))}
    (h : Lays step fun o => stmts o.toList.flatten) :
    Lays (many step) fun parts => stmts parts.flatten := by
  simp only [map_flatten, ← flatMap_def] at h ⊢
  exact lays_many h

/-- The rule reads statements, at least one. -/
structure ReadsSome (p : Parse (List Node)) : Prop where
  lays : Lays p stmts
  ne_nil : ∀ ⦃c ns c'⦄, p c = .ok (ns, c') → ns ≠ []

/-- The block has statements or is hollow. -/
abbrev Occupied (lo : Position) (body : List Node) (hi : Position) : Prop :=
  body = [] → HollowBetween lo hi

/-- A statement that must have a block. -/
theorem follows_compound (hlt : start < lo) (hparts : form.roles .statement = nodes)
    (hkind : form.isStatement = true) (hcolon : form.colon? = none)
    (hblock : form.block? = some body) :
    Follows lo nodes (stmt start form) fun n hi => Occupied start body hi →
      ReadAs .statement start n hi := by
  refine .span fun _ h hbody => h.statement hlt.le (hlt.trans_le h.le) hparts hkind hcolon
    fun hempty => ?_
  exact hbody (Option.some.inj (hblock.symm.trans hempty))

omit [Reading] in
theorem ne_nil_of_simpleStatements {ns : List Node} (h : simpleStatements c = .ok (ns, c')) :
    ns ≠ [] := by
  obtain ⟨first, middle, -, h⟩ := bind_eq_ok h
  obtain ⟨more, last, -, h⟩ := bind_eq_ok h
  rw [kind_bind] at h
  split at h
  · obtain ⟨-, h⟩ := expect_bind_eq_ok h
    cases h
    exact cons_ne_nil _ _
  · cases h
    exact cons_ne_nil _ _

section Blocks

variable {statement : Parse (List Node)} (hstatement : ReadsSome statement)

include hstatement

theorem lays_suite : Lays (suite statement) stmts := by
  refine lays_of_follows fun lo => .accept_ite ?_ ?_
  · exact lays_simpleStatements.follows
  refine .expect fun _ => .bind (lays_lines ?_) fun parts => .pure fun hi h => h
  refine lays_of_follows fun lo => .accept_ite (.pure fun hi h => h) ?_
  refine .kind_ite (.pure fun hi h => h) ?_
  refine .accept_ite (.pure fun hi h => h) ?_
  exact .bind hstatement.lays fun ns => .pure fun hi h => by simpa using h

/-- The first line of an indented block gives a statement, unless the block ends before it. -/
theorem ends_of_lines_eq_nil
    (hrun : (many (do
      if ← accept .dedent then return none
      if (← kind) == .done then return none
      if ← accept .newline then return some []
      return some (← statement)) >>= fun parts => pure parts.flatten) c = .ok ([], c')) :
    c.current.kind = .dedent ∨ c.current.kind = .done ∨ c.current.kind = .newline := by
  by_contra hgoesOn
  obtain ⟨hdedent, hdone, hnewline⟩ := by simpa only [not_or] using hgoesOn
  obtain ⟨parts, last, hparts, hpure⟩ := bind_eq_ok hrun
  obtain ⟨first, middle, hfirst, hmore⟩ := bind_eq_ok hparts
  rw [accept_ite_of_ne hdedent, kind_bind, if_neg (by simpa using hdone),
    accept_ite_of_ne hnewline] at hfirst
  obtain ⟨ns, middle', hns, hpure'⟩ := bind_eq_ok hfirst
  cases hpure'
  obtain ⟨more, last', -, hpure''⟩ := bind_eq_ok hmore
  cases hpure''
  have hflatten : (ns :: more).flatten = [] := congrArg Prod.fst (Except.ok.inj hpure)
  rw [flatten_cons, append_eq_nil_iff] at hflatten
  exact hstatement.ne_nil hns hflatten.1

omit hstatement [Reading] in
/-- Where taking a token changes the kind, there was a token to go on with. -/
theorem rest_eq_of_kind_ne {c : Cursor} (h : c.advance.current.kind ≠ c.current.kind) :
    c.rest = c.advance.current :: c.advance.rest := by
  obtain ⟨current, rest, lastEnd⟩ := c
  cases rest with
  | nil => exact absurd rfl h
  | cons next rest => rfl

/-- A block without statements is an indent with a dedent behind it. -/
theorem occupied_of_suite (hc : c.Ordered) (hcolon : c.current.kind = .colon)
    (hrun : suite statement c.advance = .ok (body, c')) :
    Occupied c.current.start body c'.lastEnd := by
  rintro rfl
  have hstop : c.current.stop ≤ c'.lastEnd := by
    rw [← Cursor.Ordered.lastEnd_advance_of_visible (by rw [hcolon]; rfl)]
    exact (lays_suite hstatement hc.advance hrun).2.le
  rcases accept_bind_eq_ok hrun with ⟨hnewline, hrun⟩ | ⟨-, hrun⟩
  · obtain ⟨hindent, hrun⟩ := expect_bind_eq_ok hrun
    have hends := ends_of_lines_eq_nil hstatement hrun
    have hrest := rest_eq_of_kind_ne (c := c) (by rw [hnewline, hcolon]; decide)
    have hrest' := rest_eq_of_kind_ne (c := c.advance) (by rw [hindent, hnewline]; decide)
    have hrest'' : c.advance.advance.rest = c.advance.advance.advance.current ::
        c.advance.advance.advance.rest := by
      apply rest_eq_of_kind_ne
      rw [hindent]
      rcases hends with hkind | hkind | hkind
      all_goals rw [hkind]; decide
    rw [hrest', hrest''] at hrest
    obtain ⟨before, hbefore⟩ := hc.suffix
    rw [hrest] at hbefore
    refine ⟨_, _, _, _, _, _, hbefore.symm, hcolon, hnewline, hindent, ?_, le_rfl, hstop⟩
    -- Of the three ends only a dedent can stand directly behind an indent.
    have hnext := Reading.marked (before ++ [c.current, c.advance.current]) _ _ _
      (by simpa using hbefore.symm) hindent
    exact hends.resolve_right (not_or.mpr ⟨hnext.2, hnext.1⟩)
  · exact absurd rfl (ne_nil_of_simpleStatements hrun)

theorem block_spans :
    Spans (block statement) fun lo body hi => Arranged lo (stmts body) hi ∧
      Occupied lo body hi := by
  intro c body c' hc hrun
  obtain ⟨hcolon, hrun⟩ := expect_bind_eq_ok hrun
  obtain ⟨hc', hbody⟩ := lays_suite hstatement hc.advance hrun
  refine ⟨hc', hbody.mono hc.lastEnd_le_advance le_rfl, fun hnil => ?_⟩
  exact (occupied_of_suite hstatement hc hcolon hrun hnil).mono
    (hc.current_of_visible (by rw [hcolon]; rfl)).1 le_rfl

theorem lays_block : Lays (block statement) stmts := fun _ _ _ hc hrun =>
  (block_spans hstatement hc hrun).imp id And.left

/-- A block that the statement must have, and what comes behind it. -/
theorem follows_block {q : List Node → Parse Node} (hlo : start ≤ lo)
    (hsilent : ∀ body, Silent (q body))
    (h : ∀ body, Follows lo (nodes ++ stmts body) (q body) fun n hi =>
      Occupied start body hi → ReadAs .statement start n hi) :
    Follows lo nodes (block statement >>= q) (ReadAs .statement start) := by
  intro c n c' hc hnodes hrun
  obtain ⟨body, middle, hbody, hrun⟩ := bind_eq_ok hrun
  obtain ⟨hmiddle, hstands, hoccupied⟩ := block_spans hstatement hc hbody
  obtain ⟨-, hle⟩ := hsilent body hmiddle hrun
  obtain ⟨hc', hn⟩ := h body hmiddle (hnodes.append hstands) hrun
  exact ⟨hc', hn fun hnil => (hoccupied hnil).mono (hlo.trans hnodes.le) hle⟩

theorem lays_optionalBlock (word : TokenKind) : Lays (optionalBlock statement word) stmts := by
  refine lays_of_follows fun lo => .accept_ite ?_ ?_
  · exact (lays_block hstatement).follows
  · exact .pure fun hi h => h

omit hstatement in
/-- A statement that may begin with `async` begins with the current token. -/
theorem async_bind_eq_ok {α : Type} {k : TokenKind} (hk : k.isLayout = false)
    {f : Position → Bool → Token → Parse α} {c : Cursor} {r : α × Cursor} (hc : c.Ordered)
    (hrun : (Parse.start >>= fun s => accept .kwAsync >>= fun isAsync =>
      expect k what >>= f s isAsync) c = .ok r) :
    ∃ isAsync word middle, c.current.kind.isLayout = false ∧ middle.Ordered ∧
      c.current.stop ≤ middle.lastEnd ∧ f c.current.start isAsync word middle = .ok r := by
  rw [start_bind] at hrun
  rcases accept_bind_eq_ok hrun with ⟨hkind, hrun⟩ | ⟨-, hrun⟩
  · have hvisible : c.current.kind.isLayout = false := by rw [hkind]; rfl
    obtain ⟨-, hrun⟩ := expect_bind_eq_ok hrun
    refine ⟨true, _, _, hvisible, hc.advance.advance, ?_, hrun⟩
    rw [← Cursor.Ordered.lastEnd_advance_of_visible hvisible]
    exact hc.advance.lastEnd_le_advance
  · obtain ⟨hkind, hrun⟩ := expect_bind_eq_ok hrun
    have hvisible : c.current.kind.isLayout = false := by rw [hkind, hk]
    exact ⟨false, _, _, hvisible, hc.advance,
      (Cursor.Ordered.lastEnd_advance_of_visible hvisible).ge, hrun⟩

omit hstatement in
theorem begins_async {k : TokenKind} (hk : k.isLayout = false)
    {f : Position → Bool → Token → Parse Node}
    (h : ∀ (t : Token) isAsync word, t.start < t.stop →
      Follows t.stop [] (f t.start isAsync word) (ReadAs role t.start)) :
    Begins role (Parse.start >>= fun s => accept .kwAsync >>= fun isAsync =>
      expect k what >>= f s isAsync) := by
  intro c n c' hc hvisible hrun
  obtain ⟨isAsync, word, middle, -, hmiddle, hstop, hrun⟩ := async_bind_eq_ok hk hc hrun
  exact h c.current isAsync word (hc.current_of_visible hvisible).2.1 hmiddle (.nil hstop) hrun

/-- A header that has been read behind decorators, the colon behind it and the body. -/
theorem follows_body (form : Position → List Node → Form Node) {header : List (Role × Node)}
    {decorators : List Node}
    {mid lo' : Position} (hdecorators : Arranged lo (expressions decorators) mid)
    (hmid : mid ≤ start) (hlo : start < lo')
    (hcolon : ∀ colon body, (form colon body).colon? = some colon)
    (hfront : ∀ colon body, (form colon body).decorators = decorators)
    (hbody : ∀ colon body, (form colon body).body = body)
    (hblock : ∀ colon body, (form colon body).block? = some body)
    (hroles : ∀ colon body, (expressions decorators ++ (header ++ stmts body)).Perm
      ((form colon body).roles .statement))
    (hstanding : ∀ colon body, (form colon body).standing = decorators ++
      (header.map Prod.snd ++ body)) : Follows lo' header (do
      let colon ← expect .colon .colon
      let body ← suite statement
      stmt start (form colon.start body)) (ReadAs .statement lo) := by
  intro c n c' hc hheader hrun
  obtain ⟨hkind, hrun⟩ := expect_bind_eq_ok hrun
  obtain ⟨body, last, hsuite, hrun⟩ := bind_eq_ok hrun
  have hvisible : c.current.kind.isLayout = false := by rw [hkind]; rfl
  obtain ⟨hbefore, hlt, -⟩ := hc.current_of_visible hvisible
  obtain ⟨hlast, hstands⟩ := lays_suite hstatement hc.advance hsuite
  have hoccupied := occupied_of_suite hstatement hc hkind hsuite
  rw [Cursor.Ordered.lastEnd_advance_of_visible hvisible] at hstands
  cases hrun
  refine ⟨hlast, hdecorators.definition hmid hlo (hheader.mono le_rfl hbefore) hlt hstands
    (hcolon _ _) (hfront _ _) (hbody _ _) (hroles _ _) (hstanding _ _) fun hempty => ?_⟩
  refine (hoccupied (Option.some.inj ((hblock _ _).symm.trans hempty))).mono ?_ le_rfl
  exact hlo.le.trans (hheader.le.trans hbefore)

/-- A function stands behind its decorators. -/
theorem follows_functionDef (decorators : List Node) :
    Follows lo (expressions decorators) (functionDef statement decorators)
    (ReadAs .statement lo) := by
  intro c n c' hc hdecorators hrun
  obtain ⟨isAsync, word, middle, hvisible, hmiddle, hstop, hrun⟩ := async_bind_eq_ok rfl hc hrun
  obtain ⟨hle, hlt, -⟩ := hc.current_of_visible hvisible
  refine Follows.run hmiddle (.nil hstop) hrun (.bind (lays_bound _) fun name => ?_)
  refine .expect fun _ => .bind (lays_params expression_opens _ _) fun params => ?_
  refine .expect fun _ => ?_
  refine .bind (lays_behind .arrow (expression_opens .test).lays) fun returns => ?_
  exact follows_body hstatement (.functionDef isAsync · decorators name params returns ·)
    hdecorators hle hlt
    (fun _ _ => rfl) (fun _ _ => rfl) (fun _ _ => rfl) (fun _ _ => rfl)
      (fun _ _ => .of_eq (by simp [Form.roles]))
    fun _ _ => by simp [Form.standing, Form.parts, Function.comp_def]

/-- So does a class. -/
theorem follows_classDef (decorators : List Node) :
    Follows lo (expressions decorators) (classDef statement decorators) (ReadAs .statement lo) := by
  intro c n c' hc hdecorators hrun
  rw [classDef, start_bind] at hrun
  obtain ⟨hkind, hrun⟩ := expect_bind_eq_ok hrun
  have hvisible : c.current.kind.isLayout = false := by rw [hkind]; rfl
  obtain ⟨hle, hlt, -⟩ := hc.current_of_visible hvisible
  have hstop := (Cursor.Ordered.lastEnd_advance_of_visible hvisible).ge
  refine Follows.run hc.advance (.nil hstop) hrun (.bind (lays_bound _) fun name => ?_)
  have hrest (args : List Node × List (Keyword Node)) : Follows c.current.stop
      ((.bound, name) :: expressions (Node.mixed args.1 (args.2.map (·.value)))) (do
        let colon ← expect .colon .colon
        let body ← suite statement
        stmt c.current.start (.classDef colon.start decorators name args.1 args.2 body))
          (ReadAs .statement lo) := by
    refine follows_body hstatement (.classDef · decorators name args.1 args.2 ·) hdecorators hle hlt
      (fun _ _ => rfl) (fun _ _ => rfl) (fun _ _ => rfl) (fun _ _ => rfl) (fun colon body => ?_)
        fun _ _ => ?_
    · have hargs := (Node.mixed_perm args.1 (args.2.map (·.value))).map (Role.expression, ·)
      refine (((hargs.append_right (stmts body)).cons (Role.bound, name)).append_left _).trans
        (.of_eq ?_)
      simp [Form.roles, Function.comp_def]
    · simp [Form.standing, Function.comp_def]
  refine .accept_ite ?_ ?_
  · refine .bind (lays_arguments expression_opens) fun args => ?_
    exact .expect fun _ => .pure_bind (hrest args)
  · exact .pure_bind (by simpa [Node.mixed] using hrest ([], []))

theorem lays_decorated : Lays (decorated statement) fun n => [(.statement, n)] := by
  refine lays_of_follows fun lo => .bind (lays_nodes .expression ?_) fun decorators => ?_
  · refine lays_of_follows fun lo => .accept_ite (.pure fun hi h => h) ?_
    exact .bind namedTest_opens.lays fun n => .expect fun _ => .pure fun hi h => h
  · refine .silent silent_kind fun kind => .silent silent_nextKind fun next => ?_
    exact .ite (follows_functionDef hstatement decorators)
      (.ite (follows_classDef hstatement decorators) .reject)

/-- A condition and its block stand behind their keyword. -/
def Branch.Stands (lo : Position) (b : Branch) (hi : Position) : Prop :=
  lo ≤ b.start ∧ Arranged b.start ((.expression, b.test) :: stmts b.body) hi ∧
    Occupied b.start b.body hi

theorem branch_begins {b : Branch} (hc : c.Ordered) (hvisible : c.current.kind.isLayout = false)
    (hrun : branch statement c = .ok (b, c')) :
    c'.Ordered ∧ b.start = c.current.start ∧ Branch.Stands c.lastEnd b c'.lastEnd := by
  rw [branch, take_bind] at hrun
  obtain ⟨test, middle, htest, hrun⟩ := bind_eq_ok hrun
  obtain ⟨body, last, hbody, hrun⟩ := bind_eq_ok hrun
  cases hrun
  obtain ⟨hmiddle, htest⟩ := namedTest_opens.lays hc.advance htest
  obtain ⟨hlast, hbody, hoccupied⟩ := block_spans hstatement hmiddle hbody
  obtain ⟨hle, hlt, -⟩ := hc.current_of_visible hvisible
  have hstart : c.current.start ≤ c.advance.lastEnd :=
    hlt.le.trans (Cursor.Ordered.lastEnd_advance_of_visible hvisible).ge
  refine ⟨hlast, rfl, hle, (htest.append hbody).mono hstart le_rfl, fun hnil => ?_⟩
  exact (hoccupied hnil).mono (hstart.trans htest.le) le_rfl

omit hstatement in
/-- Branches are nested in the alternatives of the ones before. -/
theorem arranged_nestBranches {orElse : List Node} {isElif : Bool} {first : Branch}
    {rest : List Branch} {mid last : Position} (hfirst : Branch.Stands lo first mid)
    (hrest : Linked Branch.Stands mid rest last) (horElse : Arranged last (stmts orElse) hi) :
    ReadAs .statement first.start (nestBranches hi orElse isElif first rest) hi := by
  induction rest generalizing first isElif lo mid with
  | nil =>
    have hall := (hfirst.2.1.mono le_rfl hrest).append horElse
    refine hall.statement le_rfl (hall.lt_of_mem mem_cons_self) rfl rfl rfl fun hempty => ?_
    exact (hfirst.2.2 (Option.some.inj hempty)).mono le_rfl (hrest.trans horElse.le)
  | cons next rest ih =>
    obtain ⟨mid', hnext, hmore⟩ := hrest
    have hnested : ReadAs .statement next.start (nestBranches hi orElse true next rest) hi :=
      ih hnext hmore
    have hall := hfirst.2.1.append (hnested.mono hnext.1 le_rfl)
    refine hall.statement le_rfl (hall.lt_of_mem mem_cons_self) rfl rfl rfl fun hempty => ?_
    exact (hfirst.2.2 (Option.some.inj hempty)).mono le_rfl (hnext.1.trans hnested.le)

theorem ifStmt_begins : Begins .statement (ifStmt statement) := by
  intro c n c' hc hvisible hrun
  obtain ⟨first, middle, hfirst, hrun⟩ := bind_eq_ok hrun
  obtain ⟨more, middle', hmore, hrun⟩ := bind_eq_ok hrun
  obtain ⟨orElse, last, horElse, hrun⟩ := bind_eq_ok hrun
  cases hrun
  obtain ⟨hmiddle, hstart, hfirst⟩ := branch_begins hstatement hc hvisible hfirst
  obtain ⟨hmiddle', hmore⟩ := many_at_spans (S := Branch.Stands) rfl
    (fun _ _ _ hc hvisible hrun => (branch_begins hstatement hc hvisible hrun).imp id And.right)
      hmiddle hmore
  obtain ⟨hlast, horElse⟩ := lays_optionalBlock hstatement _ hmiddle' horElse
  rw [← hstart]
  exact ⟨hlast, arranged_nestBranches hfirst hmore horElse⟩

theorem whileStmt_begins : Begins .statement (whileStmt statement) := by
  intro c n c' hc hvisible hrun
  obtain ⟨first, middle, hfirst, hrun⟩ := bind_eq_ok hrun
  obtain ⟨orElse, last, horElse, hrun⟩ := bind_eq_ok hrun
  cases hrun
  obtain ⟨hmiddle, hstart, hfirst⟩ := branch_begins hstatement hc hvisible hfirst
  obtain ⟨hlast, horElse⟩ := lays_optionalBlock hstatement _ hmiddle horElse
  rw [← hstart]
  have hall := hfirst.2.1.append horElse
  refine ⟨hlast, hall.statement le_rfl (hall.lt_of_mem mem_cons_self) rfl rfl rfl fun hempty => ?_⟩
  exact (hfirst.2.2 (Option.some.inj hempty)).mono le_rfl horElse.le

theorem forStmt_begins : Begins .statement (forStmt statement) := by
  refine begins_async rfl fun t isAsync word hlt => ?_
  refine .bind (targetList_opens expression_opens).lays fun target => ?_
  refine .expect fun _ => .bind tests_opens.lays fun iterable => ?_
  refine follows_block hstatement hlt.le (fun _ => ?_) fun body => ?_
  · exact (lays_optionalBlock hstatement _).silent.bind fun _ => silent_stmt
  · exact .bind (lays_optionalBlock hstatement _) fun orElse => follows_compound hlt rfl rfl rfl rfl

theorem handler_begins : Begins .statement (handler statement) := by
  have hrest (word : Token) (type target : Option Node) (hlt : word.start < word.stop) :
      Follows word.stop (expressions type.toList ++ target.toList.map (.bound, ·)) (do
        let body ← block statement
        stmt word.start (.handler type target body)) (ReadAs .statement word.start) :=
    follows_block hstatement hlt.le (fun _ => silent_stmt) fun body =>
      follows_compound hlt (by simp [Form.roles]) rfl rfl rfl
  refine begins_take fun word hlt => .kind_ite ?_ ?_
  · exact .pure_bind (hrest word none none hlt)
  · refine .bind (expression_opens .test).lays fun type => ?_
    refine .bind (lays_behind .kwAs (lays_bound _)) fun target => ?_
    exact .pure_bind (by simpa using hrest word (some type) target hlt)

theorem tryStmt_begins : Begins .statement (tryStmt statement) := by
  have hfinal (word : Token) (body handlers orElse : List Node) (hlt : word.start < word.stop) :
      Follows word.stop (stmts body ++ stmts handlers ++ stmts orElse) (do
        let final ← optionalBlock statement .kwFinally
        if handlers.isEmpty && final.isEmpty then reject .tryWithoutHandler
        stmt word.start (.tryStmt body handlers orElse final))
        fun n hi => Occupied word.start body hi → ReadAs .statement word.start n hi := by
    refine .bind (lays_optionalBlock hstatement _) fun final => .ite .reject_bind ?_
    exact follows_compound hlt rfl rfl rfl rfl
  have hhandlers := lays_many_at (k := .kwExcept) rfl (handler_begins hstatement)
  refine begins_take fun word hlt => follows_block hstatement hlt.le
    (fun body => hhandlers.silent.bind fun handlers => ?_)
    fun body => .bind hhandlers fun handlers => ?_
  · refine .ite ((silent_pure _).bind fun orElse => ?_)
      ((lays_optionalBlock hstatement _).silent.bind fun orElse => ?_)
    all_goals
      exact (lays_optionalBlock hstatement _).silent.bind fun final =>
        .ite silent_reject_bind silent_stmt
  refine .ite (.pure_bind ?_) ?_
  · simpa using hfinal word body handlers [] hlt
  · exact .bind (lays_optionalBlock hstatement _) fun orElse => hfinal word body handlers orElse hlt

omit hstatement in
theorem withItem_opens : Opens .statement withItem := by
  intro c n c' hc hrun
  rw [withItem, start_bind] at hrun
  obtain ⟨manager, middle, hmanager, hrun⟩ := bind_eq_ok hrun
  obtain ⟨hmiddle, hvisible, hstands⟩ := expression_opens .test hc hmanager
  have htarget : Lays (do return (← expression .bitwiseOr).withUsage .store) fun n =>
    [(.target, n)] :=
    (expression_opens .bitwiseOr).lays.bind fun _ _ => .pure fun _ h => h.bound
  obtain ⟨hc', hn⟩ :=
      Follows.run hmiddle hstands hrun (.bind (lays_behind .kwAs htarget) fun target =>
    follows_stmt_at (by simp [Form.roles]) rfl rfl)
  exact ⟨hc', hvisible, hn⟩

theorem withStmt_begins : Begins .statement (withStmt statement) := by
  refine begins_async rfl fun t isAsync word hlt => .bind (lays_oneOrMore withItem_opens.lays)
    fun items => ?_
  exact follows_block hstatement hlt.le (fun _ => silent_stmt) fun body =>
    follows_compound hlt rfl rfl rfl rfl

omit hstatement [Reading] in
theorem ne_nil_of_statementRule {ns : List Node} (h : statementRule statement c = .ok (ns, c')) :
    ns ≠ [] := by
  have halone {p : Parse Node} (h : (do return [← p]) c = .ok (ns, c')) : ns ≠ [] := by
    obtain ⟨n, middle, -, h⟩ := bind_eq_ok h
    cases h
    exact cons_ne_nil _ _
  rw [statementRule, kind_bind] at h
  generalize c.current.kind = k at h
  split at h
  case h_10 =>
    rw [nextKind_bind] at h
    generalize (c.rest.headD c.current).kind = next at h
    split at h
    all_goals first | exact halone h | cases h
  all_goals first | exact halone h | exact ne_nil_of_simpleStatements h | cases h

theorem lays_statementRule : Lays (statementRule statement) stmts := by
  have hfunction : Lays (functionDef statement []) fun n => [(.statement, n)] :=
    lays_of_follows fun lo => follows_functionDef hstatement []
  have hclass : Lays (classDef statement []) fun n => [(.statement, n)] :=
    lays_of_follows fun lo => follows_classDef hstatement []
  refine lays_kind fun k => ?_
  split
  · exact fun _ _ _ _ _ hrun => absurd hrun reject_ne_ok
  · exact (lays_decorated hstatement).alone
  · exact hfunction.alone
  · exact hclass.alone
  · exact (ifStmt_begins hstatement).alone rfl
  · exact (whileStmt_begins hstatement).alone rfl
  · exact (forStmt_begins hstatement).alone rfl
  · exact (tryStmt_begins hstatement).alone rfl
  · exact (withStmt_begins hstatement).alone rfl
  · refine laysAt_nextKind fun next => ?_
    split
    · exact hfunction.alone
    · exact (forStmt_begins hstatement).alone rfl
    · exact (withStmt_begins hstatement).alone rfl
    · exact Lays.at (lays_of_follows fun lo => .silent silent_take fun _ => .reject)
  · exact lays_simpleStatements.at

end Blocks

theorem lays_statementWithin (depth : Nat) : Lays (statementWithin depth) stmts := by
  suffices h : ReadsSome (statementWithin depth) from h.lays
  induction depth with
  | zero => exact ⟨fun _ _ _ _ hrun => absurd hrun reject_ne_ok, fun _ _ _ hrun =>
    absurd hrun reject_ne_ok⟩
  | succ depth ih => exact ⟨lays_statementRule ih, fun _ _ _ hrun => ne_nil_of_statementRule hrun⟩

theorem lays_statementLine : Lays statementLine stmts :=
  fun c _ _ hc hrun => lays_statementWithin (c.ahead + 1) hc hrun

/-- The statements of a module stand between the first token and the end. -/
theorem arranged_statements (hc : c.Ordered)
    (hrun : statements c = .ok (body, c')) : Arranged c.lastEnd (stmts body) c'.current.start := by
  obtain ⟨parts, last, hparts, hresult⟩ := bind_eq_ok hrun
  cases hresult
  obtain ⟨hlast, harranged⟩ : c'.Ordered ∧ Arranged c.lastEnd (stmts parts.flatten) c'.lastEnd := by
    refine lays_lines ?_ hc hparts
    refine lays_of_follows fun lo => .kind_ite (.pure fun hi h => h) ?_
    refine .accept_ite (.pure fun hi h => h) ?_
    exact .bind lays_statementLine fun ns => .pure fun hi h => by simpa using h
  have hdone := kind_of_statements hrun
  have hlayout : c'.current.kind.isLayout = true := by rw [hdone]; rfl
  exact harranged.mono le_rfl ((hlast.current_of_layout hlayout).1 hdone)

end NameInference.Grammar

import NameInference.Syntax.Grammar.Expression
import NameInference.Proofs.Progress.Basic

/-!
# Expressions take tokens

Every rule for an expression takes a token, and uses the rules for nested expressions only behind a
token. So the rules are determined by what they do with fewer tokens ahead: closing them to any
depth beyond the number of tokens gives the same.
-/

namespace NameInference

variable {k : TokenKind}

namespace Grammar

open Parse

/-- With fewer than `n` tokens ahead, the two closings of the rules do the same, and every rule
takes a token. -/
abbrev AgreeWithin (n : Nat) (inner inner' : Inner) : Prop := AgreeAll n inner inner'

variable {K : TokenKind → Prop} {m n : Nat} {start : Position} {inner inner' : Inner}

theorem stay_node (form : Form Node) : Agree K m (fun _ => 0) (node start form) (node start form) :=
  agree_spanFrom_bind fun _ => stay_pure _

theorem stay_atClause : Stay m atClause atClause :=
  agree_kind_bind fun _ _ => agree_nextKind_bind fun _ => stay_pure _

theorem stay_tupleAfter {goesOn : TokenKind → Bool} {element element' : Parse Node}
    (h : Stay n element element') (first : Node) :
    Stay n (tupleAfter goesOn element first) (tupleAfter goesOn element' first) := by
  refine agree_kind_bind fun _ _ => .ite (fun _ => stay_pure _) fun _ => ?_
  exact (stay_afterCommas h).at.stay_bind fun _ => stay_node _

/-- Elements between commas, of which something is made. -/
theorem stay_listOf {goesOn : TokenKind → Bool} {element element' : Parse Node}
    (h : Stay n element element') (f : Node → Node) :
    Stay n (do let first ← element; return f (← tupleAfter goesOn element first))
      (do let first ← element'; return f (← tupleAfter goesOn element' first)) :=
  h.stay_bind fun first => (stay_tupleAfter h first).map

section Rules

variable (h : AgreeWithin n inner inner')

include h

theorem stay_inner (level : Level) : Stay n (inner level) (inner' level) := (h level).stay

theorem stay_starred (level : Level) :
    Stay n (starred inner start level) (starred inner' start level) :=
  (stay_inner h level).stay_bind fun _ => stay_node _

theorem take_namedOr :
    Agree K n (fun _ => 1) (namedOr inner (inner .test)) (namedOr inner' (inner' .test)) := by
  refine agree_kind_bind fun k _ => agree_nextKind_bind fun next => .ite (fun hnamed => ?_) fun _ =>
    (h .test).at
  refine take_first (ne_done_of_beq (Bool.and_eq_true_iff.mp hnamed).1 nofun) fun _ => ?_
  exact stay_take.stay_bind fun _ => (stay_inner h .test).stay_bind fun _ => stay_node _

theorem take_element :
    Agree K n (fun _ => 1) (element inner (inner .test)) (element inner' (inner' .test)) := by
  refine agree_kind_bind fun k _ => .ite (fun hstar => ?_) fun _ => take_namedOr h
  exact take_first (ne_done_of_beq hstar nofun) fun _ => stay_starred h _

theorem stay_element : Stay n (element inner (inner .test)) (element inner' (inner' .test)) :=
  (take_element h).stay

theorem take_testList :
    Agree K n (fun _ => 1) (testList inner (inner .test)) (testList inner' (inner' .test)) :=
  (take_element h).bind fun _ => (stay_tupleAfter (stay_element h) _).pred

theorem stay_targetList :
    Stay n (targetList inner (inner .bitwiseOr)) (targetList inner' (inner' .bitwiseOr)) := by
  refine stay_listOf (agree_kind_bind fun k _ => .ite (fun _ => ?_) fun _ =>
    (stay_inner h .bitwiseOr).at) _
  exact stay_take.at.stay_bind fun _ => stay_starred h _

theorem take_yieldExpr (hk : (k == .kwYield) = true) :
    Agree (· = k) n (fun _ => 1) (yieldExpr inner) (yieldExpr inner') := by
  refine take_first (ne_done_of_beq hk nofun) fun _ => stay_accept_ite ?_ ?_
  · exact (stay_inner h .test).stay_bind fun _ => stay_node _
  · refine agree_kind_bind fun k _ => .ite (fun _ => ?_) fun _ => stay_node _
    exact (take_testList h).stay.stay_bind fun _ => stay_node _

theorem take_yieldOr {tests tests' : Parse Node}
    (htests : Agree (fun _ => True) n (fun _ => 1) tests tests') :
    Agree (fun _ => True) n (fun _ => 1) (yieldOr inner tests) (yieldOr inner' tests') :=
  agree_kind_bind fun _ _ => .ite (fun hyield => take_yieldExpr h hyield) fun _ => htests.at

theorem stay_namedParam (kind : ParamKind) (hinted : Bool) :
    Stay n (namedParam inner start kind hinted) (namedParam inner' start kind hinted) := by
  have hbehind (k : TokenKind) : Stay n (behind k (inner .test)) (behind k (inner' .test)) :=
    stay_behind (stay_inner h .test)
  refine stay_expect_bind fun name => .ite (fun _ => ?_) fun _ => ?_
  · refine (hbehind .colon).stay_bind fun _ => (hbehind .equal).stay_bind fun _ => ?_
    exact agree_spanFrom_bind fun _ => stay_pure _
  · refine (stay_pure _).stay_bind fun _ => (hbehind .equal).stay_bind fun _ => ?_
    exact agree_spanFrom_bind fun _ => stay_pure _

theorem stay_paramItem (hinted : Bool) :
    Stay n (paramItem inner hinted) (paramItem inner' hinted) := by
  refine agree_token_bind fun t _ => stay_accept_ite (stay_pure _) ?_
  refine stay_accept_ite (stay_namedParam h _ _) (stay_accept_ite ?_ ?_)
  · exact agree_kind_bind fun _ _ => .ite (fun _ => stay_pure _) fun _ => (stay_namedParam h _ _).at
  · exact (stay_namedParam h _ hinted).at

theorem stay_params (closer : TokenKind) (hinted : Bool) :
    Stay n (params inner closer hinted) (params inner' closer hinted) :=
  (stay_betweenCommas (stay_paramItem h hinted)).map

theorem take_clause : Agree (fun _ => True) n (fun _ => 1) (clause inner) (clause inner') := by
  refine stay_accept.stay_bind fun isAsync => (agree_expect (by decide)).bind fun _ => Agree.pred ?_
  refine (stay_targetList h).stay_bind fun target => stay_expect_bind fun _ => ?_
  refine (stay_inner h .orTest).stay_bind fun iterable => ?_
  exact (stay_many (step_behind (by decide) (stay_inner h .orTest))).map

theorem stay_comprehension (kind : ComprehensionKind) (first : Node) (value : Option Node) :
    Stay n (comprehension inner kind first value) (comprehension inner' kind first value) := by
  refine (stay_many ?_).stay_bind fun _ => stay_node _
  exact stay_atClause.stay_bind fun _ => .ite (fun _ => (take_clause h).map.step) fun _ =>
    agree_pure _ rfl

theorem stay_bracketed {opener : Position} {kind : ComprehensionKind} {first : Node}
    {value : Option Node} {closer : TokenKind} {what : Expectation} :
    Stay n (bracketed inner opener kind first value closer what)
      (bracketed inner' opener kind first value closer what) := by
  refine (stay_comprehension h kind first value).stay_bind fun comprehension => ?_
  obtain ⟨span, usage, form⟩ := comprehension
  exact stay_expect_bind fun _ => stay_node _

theorem stay_argument : Stay n (argument inner) (argument inner') := by
  refine agree_token_bind fun t _ => stay_accept_ite (stay_starred h _).map ?_
  refine stay_accept_ite (stay_inner h .test).map (agree_nextKind_bind fun next =>
    .ite (fun _ => ?_) ?_)
  · exact stay_take.at.stay_bind fun _ => stay_take.stay_bind fun _ => (stay_inner h .test).map
  · refine fun _ => (take_namedOr h).stay.stay_bind fun value => stay_atClause.stay_bind fun _ => ?_
    exact .ite (fun _ => (stay_comprehension h _ _ _).map) fun _ => stay_pure _

theorem stay_arguments : Stay n (arguments inner) (arguments inner') :=
  (stay_betweenCommas (stay_argument h)).map

theorem stay_slicePart : Stay n (slicePart inner) (slicePart inner') :=
  agree_kind_bind fun _ _ => .ite (fun _ => stay_pure _) fun _ => (stay_inner h .test).map.at

theorem stay_sliceFrom (lower : Option Node) :
    Stay n (sliceFrom inner start lower) (sliceFrom inner' start lower) := by
  refine stay_take.stay_bind fun _ => (stay_slicePart h).stay_bind fun _ => stay_accept_ite ?_ ?_
  · exact (stay_slicePart h).stay_bind fun _ => stay_node _
  · exact (stay_pure _).stay_bind fun _ => stay_node _

theorem stay_sliceItem : Stay n (sliceItem inner) (sliceItem inner') := by
  refine agree_start_bind fun s => agree_kind_bind fun k _ =>
    .ite (fun _ => (stay_sliceFrom h _).at) fun _ => ?_
  refine (stay_element h).at.stay_bind fun lower => agree_kind_bind fun k _ => ?_
  exact .ite (fun _ => (stay_sliceFrom h _).at) fun _ => stay_pure _

theorem stay_subscripts : Stay n (subscripts inner) (subscripts inner') :=
  (stay_sliceItem h).stay_bind fun _ => stay_tupleAfter (stay_sliceItem h) _

theorem step_trailer : Step n (trailer inner) (trailer inner') := by
  have hclosed {K : TokenKind → Prop} {m : Nat} (t : Trailer) : Agree K m (fun _ => 0)
      (do return some (t, (← spanFrom default).stop))
        (do return some (t, (← spanFrom default).stop)) :=
    agree_spanFrom_bind fun _ => stay_pure _
  refine step_accept_bind nofun ?_ (step_accept_bind nofun ?_ (step_accept_bind nofun ?_ ?_))
  · exact (stay_arguments h).stay_bind fun _ => stay_expect_bind fun _ => hclosed _
  · exact (stay_subscripts h).stay_bind fun _ => stay_expect_bind fun _ => hclosed _
  · exact stay_expect_bind fun _ => hclosed _
  · exact agree_pure _ rfl

omit h in
theorem take_literal (hk : k ≠ .done) (form : Token → Form Node) :
    TakeAt (· = k) n (literal form) (literal form) :=
  (agree_take.of_ne_done hk).take_bind fun _ => stay_node _

omit h in
/-- The strings of a literal go on as long as strings follow, so there is one. -/
theorem take_strings (hk : (k == .string || k == .bytes) = true) :
    TakeAt (· = k) n strings strings := by
  refine agree_start_bind fun s => ?_
  refine (take_many (agree_kind_bind fun k _ => .ite (fun hstring => ?_) fun _ => agree_pure _ rfl)
    ?_).take_bind fun tokens => .ite (fun _ => stay_node _) fun _ => stay_node _
  · have hk : k ≠ .done := by
      rintro rfl
      simp at hstring
    exact (agree_take.of_ne_done hk).map.step
  · rintro c c' hnone rfl
    rw [kind_bind] at hnone
    split at hnone
    · cases hnone
    · next hstring =>
      cases hnone
      exact hstring hk

theorem take_parenthesized : TakeAt (· ≠ .done) n (parenthesized inner) (parenthesized inner') := by
  refine agree_take.take_bind fun opener => stay_accept_ite (stay_node _) ?_
  refine agree_kind_bind fun k _ => .ite (fun hyield => ?_) fun _ => ?_
  · exact (take_yieldExpr h hyield).stay.stay_bind fun _ => stay_expect.map
  refine (stay_element h).at.stay_bind fun first => stay_atClause.stay_bind fun _ => ?_
  refine .ite (fun _ => stay_bracketed h) fun _ => agree_kind_bind fun k _ => ?_
  refine .ite (fun _ => stay_expect.map) fun _ => ?_
  refine (stay_afterCommas (stay_element h)).at.stay_bind fun _ => ?_
  exact stay_expect_bind fun _ => stay_node _

theorem take_listDisplay : TakeAt (· ≠ .done) n (listDisplay inner) (listDisplay inner') := by
  refine agree_take.take_bind fun opener => stay_accept_ite (stay_node _) ?_
  refine (stay_element h).stay_bind fun first => stay_atClause.stay_bind fun _ => ?_
  refine .ite (fun _ => stay_bracketed h) fun _ => ?_
  refine (stay_afterCommas (stay_element h)).stay_bind fun _ => ?_
  exact stay_expect_bind fun _ => stay_node _

theorem stay_dictEntry : Stay n (dictEntry inner) (dictEntry inner') := by
  refine stay_accept_ite (stay_inner h .bitwiseOr).map ?_
  refine (stay_inner h .test).stay_bind fun _ => stay_expect_bind fun _ => ?_
  exact (stay_inner h .test).map

theorem stay_dictAfter (first : Entry Node) :
    Stay n (dictAfter inner start first) (dictAfter inner' start first) := by
  refine (stay_afterCommas (stay_dictEntry h)).stay_bind fun _ => ?_
  exact stay_expect_bind fun _ => stay_node _

theorem stay_setAfter (first : Node) :
    Stay n (setAfter inner start first) (setAfter inner' start first) := by
  refine stay_atClause.stay_bind fun _ => .ite (fun _ => stay_bracketed h) fun _ => ?_
  refine (stay_afterCommas (stay_element h)).stay_bind fun _ => ?_
  exact stay_expect_bind fun _ => stay_node _

theorem take_braceDisplay : TakeAt (· ≠ .done) n (braceDisplay inner) (braceDisplay inner') := by
  refine agree_take.take_bind fun opener => stay_accept_ite (stay_node _) ?_
  refine stay_accept_ite ?_ ?_
  · exact (stay_inner h .bitwiseOr).stay_bind fun _ => stay_dictAfter h _
  refine (stay_element h).stay_bind fun first => stay_accept_ite ?_ (stay_setAfter h _)
  refine (stay_inner h .test).stay_bind fun _ => stay_atClause.stay_bind fun _ => ?_
  exact .ite (fun _ => stay_bracketed h) fun _ => stay_dictAfter h _

theorem take_atom : Take n (atom inner) (atom inner') := by
  refine agree_kind_bind fun k _ => ?_
  split
  · exact (agree_take.of_ne_done (by decide)).map
  · exact take_literal (by decide) _
  · exact take_literal (by decide) _
  · exact take_literal (by decide) _
  · exact take_strings rfl
  · exact take_strings rfl
  · exact take_literal (by decide) _
  · exact take_literal (by decide) _
  · exact take_literal (by decide) _
  · exact (take_parenthesized h).of_ne_done (by decide)
  · exact (take_listDisplay h).of_ne_done (by decide)
  · exact (take_braceDisplay h).of_ne_done (by decide)
  · exact agree_reject nofun

theorem take_power : Take n (power inner) (power inner') := by
  refine agree_start_bind fun _ => take_accept_bind fun awaited =>
    (take_atom h).take_bind fun _ => ?_
  refine (stay_many (step_trailer h)).stay_bind fun _ => ?_
  refine .ite (fun _ => (stay_node _).stay_bind fun _ => ?_) fun _ =>
    (stay_pure _).stay_bind fun _ => ?_
  all_goals
    exact stay_accept_ite ((stay_inner h .factor).stay_bind fun _ => stay_node _) (stay_pure _)

theorem take_factor : Take n (factor inner) (factor inner') := by
  refine agree_start_bind fun _ => agree_kind_bind fun k _ => ?_
  split
  · exact (take_power h).at
  · next op hop =>
    have hk : k ≠ .done := by
      rintro rfl
      cases hop
    exact (agree_take.of_ne_done hk).take_bind fun _ => (stay_inner h .factor).stay_bind fun _ =>
      stay_node _

omit h in
theorem take_chain {operator? : TokenKind → Option BinaryOp} (hoperator : operator? .done = none)
    {operand operand' : Parse Node} (hoperand : Take n operand operand') :
    Take n (chain operator? operand) (chain operator? operand') := by
  refine hoperand.take_bind fun first => (stay_many (agree_kind_bind fun k _ => ?_)).map
  split
  · exact agree_pure _ rfl
  · next op hop =>
    have hk : k ≠ .done := by
      rintro rfl
      rw [hoperator] at hop
      cases hop
    refine (take_first hk fun _ => ?_).step
    exact hoperand.stay.pred.stay_bind fun _ => agree_spanFrom_bind fun _ => stay_pure _

theorem take_bitwiseOr : Take n (bitwiseOr inner) (bitwiseOr inner') :=
  take_chain rfl (take_chain rfl
    (take_chain rfl (take_chain rfl (take_chain rfl (take_chain rfl (take_factor h))))))

omit h in
theorem step_comparisonOp : Step n comparisonOp comparisonOp := by
  refine agree_kind_bind fun k _ => ?_
  have hk {op : CompareOp} (hop : k.comparison? = some op) : k ≠ .done := by
    rintro rfl
    cases hop
  split
  · next hop =>
    exact (take_first (hk hop) fun _ => stay_accept.stay_bind fun _ => stay_pure _).step
  · next hop => exact (agree_take.of_ne_done (hk hop)).map.step
  · refine agree_nextKind_bind fun next => .ite (fun hnot => ?_) fun _ => agree_pure _ rfl
    have hk : k ≠ .done := ne_done_of_beq (Bool.and_eq_true_iff.mp hnot).1 nofun
    exact (take_first hk fun _ => stay_take.map).step

theorem take_comparison : Take n (comparison inner) (comparison inner') := by
  refine (take_bitwiseOr h).take_bind fun left => (stay_many ?_).stay_bind fun _ => ?_
  · refine step_comparisonOp.bind fun o => ?_
    cases o with
    | none => exact agree_pure _ rfl
    | some op => exact (stay_inner h .bitwiseOr).map.pred.behind_token
  · exact .ite (fun _ => stay_pure _) fun _ => stay_node _

theorem take_notTest : Take n (notTest inner) (notTest inner') := by
  refine agree_start_bind fun _ => take_accept_ite nofun ?_ (take_comparison h)
  exact (stay_inner h .notTest).stay_bind fun _ => stay_node _

omit h in
theorem take_boolean {op : BoolOp} {word : TokenKind} {operand operand' : Parse Node}
    (hword : word ≠ .done) (hoperand : Take n operand operand') :
    Take n (boolean op word operand) (boolean op word operand') := by
  refine hoperand.take_bind fun first =>
    (stay_many (step_behind hword hoperand.stay.pred)).stay_bind fun _ => ?_
  exact .ite (fun _ => stay_pure _) fun _ => stay_node _

theorem take_orTest : Take n (orTest inner) (orTest inner') :=
  take_boolean nofun (take_boolean nofun (take_notTest h))

theorem take_lambda : TakeAt (· ≠ .done) n (lambda inner) (lambda inner') := by
  refine agree_take.take_bind fun word => (stay_params h _ _).stay_bind fun _ => ?_
  exact stay_expect_bind fun _ => (stay_inner h .test).stay_bind fun _ => stay_node _

theorem take_test : Take n (test inner) (test inner') := by
  refine agree_kind_bind fun k _ => .ite (fun hlambda => ?_) fun _ => ?_
  · exact (take_lambda h).of_ne_done (ne_done_of_beq hlambda nofun)
  refine (take_orTest h).at.take_bind fun body => stay_accept_ite ?_ (stay_pure _)
  refine (stay_inner h .orTest).stay_bind fun _ => stay_expect_bind fun _ => ?_
  exact (stay_inner h .test).stay_bind fun _ => stay_node _

/-- The rules of all levels take a token, and do what the nested rules make them do behind it. -/
theorem agreeWithin_rule : AgreeWithin (n + 1) (rule inner) (rule inner') := by
  intro level
  cases level with
  | test => exact take_test h
  | orTest => exact take_orTest h
  | notTest => exact take_notTest h
  | bitwiseOr => exact take_bitwiseOr h
  | factor => exact take_factor h

end Rules

theorem agreeWithin_expression : AgreeWithin n expression expression :=
  agreeAll_closed expressionWithin expression agreeWithin_rule (fun _ => rfl) fun _ _ => rfl

theorem rule_eq_expression {inner : Inner} {c : Cursor} (hc : Terminated c.tokens)
    (h : ∀ level c', Terminated c'.tokens → c'.ahead < c.ahead →
      inner level c' = expression level c')
    (level : Level) : rule inner level c = expression level c :=
  rule_eq_closed expressionWithin expression agreeWithin_rule (fun _ => rfl) (fun _ _ => rfl) inner
    hc h level

end Grammar

end NameInference

import NameInference.Syntax.Grammar.Expression
import NameInference.Proofs.Span.Rules

/-!
# Where expressions stand

Every rule for expressions reads an expression from the current token on: nested spans, nothing
decorated, and names bound only as parameters, as targets of comprehensions and before `:=`. The
rules are taken one by one, each under the assumption that the rules for what stands further inside
do so.
-/

namespace NameInference.Grammar

open List Parse

/-- The node of a parameter, whatever its kind will be. -/
def ParamItem.parts : ParamItem → List (Role × Node)
  | .slash | .bareStar => []
  | .param span kind name hint default => [(.param, .mk span .load (.param kind name hint default))]

/-- The node of an argument. -/
def Argument.node : Argument → Node
  | .positional value => value
  | .keyword arg => arg.value

/-- The nodes of a trailer. -/
def Trailer.parts : Trailer → List (Role × Node)
  | .call args keywords => (Node.mixed args (keywords.map (·.value))).map (.expression, ·)
  | .subscript index => [(.expression, index)]
  | .member _ _ => []

/-- The nodes of a list as expressions. -/
abbrev expressions (ns : List Node) : List (Role × Node) := ns.map (.expression, ·)

variable [Reading] {lo hi start : Position} {nodes : List (Role × Node)} {inner : Inner}
  {form : Form Node}

/-- A node begins no later than its parts. Unless it begins before them, there are some. -/
theorem follows_node_of (hlo : start ≤ lo) (hlt : start < lo ∨ nodes ≠ [])
    (hparts : form.roles .expression = nodes) (hplain : form.isPlain = true) :
    Follows lo nodes (node start form) (ReadAs .expression start) := by
  refine .span fun hi h => h.plain hlo ?_ hparts hplain
  rcases hlt with hlt | hne
  · exact hlt.trans_le h.le
  · obtain ⟨n, hn⟩ := exists_mem_of_ne_nil nodes hne
    exact hlo.trans_lt (h.lt_of_mem hn)

theorem follows_node (hlt : start < lo) (hparts : form.roles .expression = nodes)
    (hplain : form.isPlain = true) :
    Follows lo nodes (node start form) (ReadAs .expression start) :=
  follows_node_of hlt.le (Or.inl hlt) hparts hplain

/-- A node that begins where the first of its parts may begin. -/
theorem follows_node_at {first : Role × Node} {more : List (Role × Node)}
    (hparts : form.roles .expression = first :: more) (hplain : form.isPlain = true) :
    Follows start (first :: more) (node start form) (ReadAs .expression start) :=
  follows_node_of le_rfl (Or.inr (cons_ne_nil _ _)) hparts hplain

theorem silent_atClause : Silent atClause :=
  silent_kind.bind fun _ => silent_nextKind.bind fun _ => silent_pure _

/-- A tuple around a first element, or the element. -/
theorem follows_tupleAfter {goesOn : TokenKind → Bool} {element : Parse Node}
    (h : Opens .expression element) (first : Node) :
    Follows first.start [(.expression, first)] (tupleAfter goesOn element first)
    (ReadAs .expression first.start) := by
  refine .kind_ite ?_ ?_
  · exact .pure fun hi h => h
  · refine .bind (lays_afterCommas h.lays) fun more => ?_
    exact follows_node_at (by simp [Form.roles]) rfl

variable (hinner : ∀ level, Opens .expression (inner level))

include hinner

theorem follows_starred (hlt : start < lo) (level : Level) :
    Follows lo [] (starred inner start level) (ReadAs .expression start) :=
  .bind (hinner level).lays fun _ => follows_node hlt rfl rfl

theorem namedOr_opens : Opens .expression (namedOr inner (inner .test)) := by
  intro c n c' hc hrun
  rw [namedOr, kind_bind, nextKind_bind] at hrun
  split at hrun
  · next hnamed =>
    have hkind : c.current.kind = .ident := beq_iff_eq.mp (Bool.and_eq_true_iff.mp hnamed).1
    refine (begins_name .bound .bound fun t => ?_).opens hc (by rw [hkind]; rfl) hrun
    refine .silent silent_take fun _ => .bind (hinner .test).lays fun value => ?_
    exact follows_node_at rfl rfl
  · exact hinner .test hc hrun

theorem element_opens : Opens .expression (element inner (inner .test)) :=
  opens_kind_ite rfl (begins_take fun _ hlt => follows_starred hinner hlt _) (namedOr_opens hinner)

theorem testList_opens : Opens .expression (testList inner (inner .test)) :=
  (element_opens hinner).bind fun first => follows_tupleAfter (element_opens hinner) first

/-- What a loop binds is a target. -/
theorem targetList_opens : Opens .target (targetList inner (inner .bitwiseOr)) := by
  have hone : Opens .expression (do
      if (← kind) == .star then
        let star ← take
        starred inner star.start .bitwiseOr
      else inner .bitwiseOr) :=
    opens_kind_ite rfl (begins_take fun _ hlt => follows_starred hinner hlt _) (hinner .bitwiseOr)
  refine hone.bind fun first => (follows_tupleAfter hone first).then fun n => .pure fun hi hn =>
    hn.bound

theorem yieldExpr_begins : Begins .expression (yieldExpr inner) := by
  refine begins_take fun t hlt => .accept_ite ?_ ?_
  · exact .bind (hinner .test).lays fun value => follows_node hlt rfl rfl
  · refine .kind_ite ?_ ?_
    · exact .bind (testList_opens hinner).lays fun value => follows_node hlt rfl rfl
    · exact follows_node hlt rfl rfl

theorem yieldOr_opens {tests : Parse Node} (htests : Opens .expression tests) :
    Opens .expression (yieldOr inner tests) :=
  opens_kind_ite rfl (yieldExpr_begins hinner) htests

theorem lays_clause : Lays (clause inner) Clause.roles := by
  refine lays_of_follows fun lo => .silent (silent_accept _) fun isAsync => .expect fun _ => ?_
  refine .bind (targetList_opens hinner).lays fun target => ?_
  refine .expect fun _ => .bind (hinner .orTest).lays fun iterable => ?_
  refine .bind (lays_many (lays_behind .kwIf (hinner .orTest).lays)) fun conditions =>
    .pure fun hi h => ?_
  simpa [Clause.roles] using h

theorem follows_comprehension (kind : ComprehensionKind) (first : Node) (value : Option Node) :
    Follows first.start (expressions (first :: value.toList)) (comprehension inner kind first value)
      (ReadAs .expression first.start) := by
  refine .bind (lays_many (?_ : Lays _ fun o : Option (Clause Node) =>
    o.toList.flatMap Clause.roles)) fun clauses => follows_node_at (by simp [Form.roles]) rfl
  refine lays_of_follows fun lo => .silent silent_atClause fun more => .ite ?_ ?_
  · exact .bind (lays_clause hinner) fun one => .pure fun hi h => by simpa using h
  · exact .pure fun hi h => h

/-- A comprehension in brackets takes the span of the brackets. -/
theorem follows_bracketed (kind : ComprehensionKind) (first : Node) (value : Option Node)
    (closer : TokenKind) (what : Expectation) (hlt : start < first.start) :
    Follows first.start (expressions (first :: value.toList))
      (bracketed inner start kind first value closer what) (ReadAs .expression start) := by
  intro c n c' hc hnodes hrun
  obtain ⟨found, middle, hfound, hrun⟩ := bind_eq_ok hrun
  obtain ⟨clauses, last, -, hform⟩ := bind_eq_ok hfound
  obtain ⟨hmiddle, harranged⟩ := follows_comprehension hinner kind first value hc hnodes hfound
  cases hform
  have hparts := (harranged.parts_expression rfl).mono harranged.le_start
    (harranged.before _ (mem_singleton_self _))
  refine Follows.run hmiddle hparts hrun (.expect fun _ => ?_)
  exact follows_node hlt rfl rfl

theorem namedParam_spans {c c' : Cursor} {kind : ParamKind} {hinted : Bool} {item : ParamItem}
    (hc : c.Ordered) (hstart : c.current.kind.isLayout = false → start ≤ c.current.start)
    (hrun : namedParam inner start kind hinted c = .ok (item, c')) :
    c'.Ordered ∧ c.current.kind.isLayout = false ∧ Arranged start item.parts c'.lastEnd := by
  have hrest (name : Node) (hint : Option Node) :
      Follows start ((.bound, name) :: expressions hint.toList) (do
      let default ← behind .equal (inner .test)
      return .param (← spanFrom start) kind name hint default) fun (item : ParamItem) hi =>
        Arranged start item.parts hi := by
    refine .bind (lays_behind .equal (hinner .test).lays) fun default => .span fun hi h => ?_
    exact h.node (.of_eq (by simp [Form.roles])) le_rfl (h.lt_of_mem mem_cons_self)
      (by simp [Form.standing, Form.parts, Function.comp_def]) (.param ..) rfl nofun
  obtain ⟨hkind, hrun⟩ := expect_bind_eq_ok hrun
  have hvisible : c.current.kind.isLayout = false := by rw [hkind]; rfl
  have hname : ReadAs .bound start (c.current.toName .store) c.advance.lastEnd := by
    rw [Cursor.Ordered.lastEnd_advance_of_visible hvisible]
    exact (arranged_toName (hc.current_of_visible hvisible).2.1 (.bound _)).mono
      (hstart hvisible) le_rfl
  have hitem : c'.Ordered ∧ Arranged start item.parts c'.lastEnd := by
    split at hrun
    · obtain ⟨hint, middle, hhint, hrun⟩ := bind_eq_ok hrun
      obtain ⟨hmiddle, hstands⟩ := lays_behind .colon (hinner .test).lays hc.advance hhint
      exact hrest _ hint hmiddle (by simpa using hname.append hstands) hrun
    · exact hrest _ none hc.advance hname hrun
  exact ⟨hitem.1, hvisible, hitem.2⟩

theorem lays_paramItem (hinted : Bool) : Lays (paramItem inner hinted) ParamItem.parts := by
  intro c item c' hc hrun
  -- A parameter behind stars begins with the stars.
  have hstarred {kind : ParamKind} (hvisible : c.current.kind.isLayout = false)
      (hrun : namedParam inner c.current.start kind hinted c.advance = .ok (item, c')) :
      c'.Ordered ∧ Arranged c.lastEnd item.parts c'.lastEnd := by
    obtain ⟨hle, hlt, -⟩ := hc.current_of_visible hvisible
    have hstart : c.advance.current.kind.isLayout = false →
        c.current.start ≤ c.advance.current.start := by
      intro hnext
      have hnext := (hc.advance.current_of_visible hnext).1
      rw [Cursor.Ordered.lastEnd_advance_of_visible hvisible] at hnext
      exact hlt.le.trans hnext
    obtain ⟨hc', -, hitem⟩ := namedParam_spans hinner hc.advance hstart hrun
    exact ⟨hc', hitem.mono hle le_rfl⟩
  rw [paramItem, token_bind] at hrun
  rcases accept_bind_eq_ok hrun with ⟨-, hrun⟩ | ⟨-, hrun⟩
  · cases hrun
    exact ⟨hc.advance, .nil hc.lastEnd_le_advance⟩
  rw [if_neg Bool.false_ne_true] at hrun
  rcases accept_bind_eq_ok hrun with ⟨hkind, hrun⟩ | ⟨-, hrun⟩
  · exact hstarred (by rw [hkind]; rfl) hrun
  rw [if_neg Bool.false_ne_true] at hrun
  rcases accept_bind_eq_ok hrun with ⟨hkind, hrun⟩ | ⟨-, hrun⟩
  · rw [if_pos rfl, kind_bind] at hrun
    split at hrun
    · cases hrun
      exact ⟨hc.advance, .nil hc.lastEnd_le_advance⟩
    · exact hstarred (by rw [hkind]; rfl) hrun
  · rw [if_neg Bool.false_ne_true] at hrun
    obtain ⟨hc', hvisible, hitem⟩ := namedParam_spans hinner hc (fun _ => le_rfl) hrun
    exact ⟨hc', hitem.mono (hc.current_of_visible hvisible).1 le_rfl⟩

omit hinner

omit [Reading] in
/-- Parameters are resolved from left to right; resolving changes nothing but how they take
arguments. -/
private theorem resolve_eq : ∃ step : List Node × Bool → ParamItem → List Node × Bool,
    (∀ items, ParamItem.resolve items = (items.foldl step ([], false)).1) ∧
    (∀ s, (step s .slash).1 = s.1.map ParamItem.beforeSlash) ∧ (∀ s, (step s .bareStar).1 = s.1) ∧
    ∀ s span kind name hint default, ∃ kind', (step s (.param span kind name hint default)).1 =
      s.1 ++ [.mk span .load (.param kind' name hint default)] :=
  ⟨_, fun _ => rfl, fun _ => rfl, fun _ => rfl, fun _ _ _ _ _ _ => ⟨_, rfl⟩⟩

theorem replaces_beforeSlash {n : Node} :
    Replaces (.param, n) (.param, ParamItem.beforeSlash n) := by
  unfold ParamItem.beforeSlash
  split
  · exact .param
  · exact .refl _

/-- The parameters stand where their items stand. -/
theorem arranged_resolve {items : List ParamItem}
    (h : Arranged lo (items.flatMap ParamItem.parts) hi) :
    Arranged lo ((ParamItem.resolve items).map (.param, ·)) hi := by
  obtain ⟨step, hresolve, hslash, hstar, hparam⟩ := resolve_eq
  suffices hfold : ∀ (s : List Node × Bool) (before : List (Role × Node)),
      List.Forall₂ Replaces before (s.1.map (.param, ·)) →
      List.Forall₂ Replaces (before ++ items.flatMap ParamItem.parts)
        ((items.foldl step s).1.map (.param, ·)) by
    rw [hresolve]
    exact h.replace (hfold ([], false) [] .nil)
  clear h
  induction items with
  | nil =>
    intro s before hs
    simpa using hs
  | cons item items ih =>
    intro s before hs
    rw [flatMap_cons, ← append_assoc, foldl_cons]
    refine ih _ _ ?_
    cases item with
    | slash =>
      rw [List.forall₂_map_right_iff] at hs
      rw [hslash, ParamItem.parts, append_nil, map_map, List.forall₂_map_right_iff]
      exact hs.imp fun x n hxn => hxn.trans replaces_beforeSlash
    | bareStar =>
      rw [hstar, ParamItem.parts, append_nil]
      exact hs
    | param span kind name hint default =>
      obtain ⟨kind', hkind⟩ := hparam s span kind name hint default
      rw [hkind, map_append]
      exact rel_append hs (.cons .param .nil)

include hinner

theorem lays_params (closer : TokenKind) (hinted : Bool) :
    Lays (params inner closer hinted) fun ns => ns.map (.param, ·) :=
  (lays_betweenCommas (lays_paramItem hinner hinted)).bind fun _ _ => .pure fun _ h =>
    arranged_resolve h

theorem lays_argument : Lays (argument inner) fun a => [(.expression, a.node)] := by
  refine lays_of_follows fun lo => .token_accept rfl (fun t hle hlt => ?_) fun t => ?_
  · exact (follows_starred hinner hlt .test).then fun n => .pure fun hi hn => hn.mono hle le_rfl
  · refine .accept_ite ?_ ?_
    · exact .bind (hinner .test).lays fun value => .pure fun hi h => h
    · refine .silent silent_nextKind fun next => .ite ?_ ?_
      · refine .silent silent_take fun _ => .silent silent_take fun _ => ?_
        exact .bind (hinner .test).lays fun value => .pure fun hi h => h
      · refine .bind (namedOr_opens hinner).lays fun value => .focus rfl fun hle => ?_
        refine .silent silent_atClause fun isGenerator => .ite ?_ ?_
        · refine (follows_comprehension hinner .generator value none).then fun n => ?_
          exact .pure fun hi hn => hn.mono hle le_rfl
        · exact .pure fun hi h => h.mono hle le_rfl

omit hinner [Reading] in
/-- Arguments are sorted into positional ones and keywords. -/
private theorem arguments_sorted (inner : Inner) :
    ∃ (positional : Argument → Option Node) (keyword : Argument → Option (Keyword Node)),
      arguments inner = (betweenCommas (· != .rparen) (argument inner) >>= fun all =>
        pure (all.filterMap positional, all.filterMap keyword)) ∧
      (∀ value, positional (.positional value) = some value ∧ keyword (.positional value) = none) ∧
      ∀ arg, positional (.keyword arg) = none ∧ keyword (.keyword arg) = some arg :=
  ⟨_, _, rfl, fun _ => ⟨rfl, rfl⟩, fun _ => ⟨rfl, rfl⟩⟩

theorem lays_arguments :
    Lays (arguments inner) fun r => expressions (Node.mixed r.1 (r.2.map (·.value))) := by
  obtain ⟨positional, keyword, harguments, hpositional, hkeyword⟩ := arguments_sorted inner
  rw [harguments]
  refine (lays_betweenCommas (lays_argument hinner)).bind fun all lo => .pure fun hi h => ?_
  rw [flatMap_single, ← Function.comp_def, ← map_map] at h
  have hstarts : (all.map Argument.node).Pairwise fun m n => m.start < n.start := by
    simpa [Function.comp_def] using h.starts_lt
  suffices hmixed : Node.mixed (all.filterMap positional) ((all.filterMap keyword).map (·.value)) =
      all.map Argument.node from hmixed ▸ h
  clear h
  induction all with
  | nil => simp [Node.mixed]
  | cons a all ih =>
    obtain ⟨hfirst, hstarts⟩ := pairwise_cons.mp hstarts
    have hrest := ih hstarts
    have hmem (n : Node)
      (hn : n ∈ all.filterMap positional ++ (all.filterMap keyword).map (·.value)) :
        a.node.start < n.start := hfirst n (hrest ▸ (Node.mixed_perm _ _).mem_iff.mpr hn)
    cases a with
    | positional value =>
      rw [filterMap_cons_some (hpositional value).1, filterMap_cons_none (hpositional value).2,
        Node.mixed_cons_left (a := value) fun n hn => hmem n (mem_append_right _ hn), hrest]
      rfl
    | keyword arg =>
      rw [filterMap_cons_none (hkeyword arg).1, filterMap_cons_some (hkeyword arg).2, map_cons,
        Node.mixed_cons_right (v := arg.value) fun n hn => hmem n (mem_append_left _ hn), hrest]
      rfl

theorem lays_slicePart : Lays (slicePart inner) fun o => expressions o.toList := by
  refine lays_of_follows fun lo => .kind_ite ?_ ?_
  · exact .pure fun hi h => h
  · exact .bind (hinner .test).lays fun value => .pure fun hi h => h

/-- A slice behind its first colon. -/
theorem follows_slice (lower : Option Node) (hlo : start ≤ lo) (hlt : start < lo ∨ lower ≠ none) :
    Follows lo (expressions lower.toList) (do
      let upper ← slicePart inner
      let step ← if ← accept .colon then slicePart inner else pure none
      node start (.slice lower upper step)) (ReadAs .expression start) := by
  have hfinish (upper step : Option Node) : Follows lo
      (expressions lower.toList ++ expressions upper.toList ++ expressions step.toList)
      (node start (.slice lower upper step)) (ReadAs .expression start) := by
    refine follows_node_of hlo (hlt.imp_right fun hne => ?_) (by simp [Form.roles, Form.parts]) rfl
    simp [hne]
  refine .bind (lays_slicePart hinner) fun upper => .accept_ite ?_ ?_
  · exact .bind (lays_slicePart hinner) fun step => hfinish upper step
  · exact .pure_bind (by simpa using hfinish upper none)

theorem sliceItem_opens : Opens .expression (sliceItem inner) := by
  intro c n c' hc hrun
  rw [sliceItem, start_bind, kind_bind] at hrun
  split at hrun
  · next hkind =>
    rw [sliceFrom, take_bind] at hrun
    refine taken_opens hc (by rw [beq_iff_eq.mp hkind]; rfl) (fun hlt => ?_) hrun
    exact follows_slice hinner none hlt.le (Or.inl hlt)
  · obtain ⟨lower, middle, hlower, hrun⟩ := bind_eq_ok hrun
    obtain ⟨hmiddle, hvisible, hstands⟩ := element_opens hinner hc hlower
    refine (Follows.run hmiddle hstands hrun ?_).imp id fun hn => ⟨hvisible, hn⟩
    refine .kind_ite ?_ ?_
    · exact .silent silent_take fun _ => follows_slice hinner (some lower) le_rfl (Or.inr (by simp))
    · exact .pure fun hi h => h

theorem subscripts_opens : Opens .expression (subscripts inner) :=
  (sliceItem_opens hinner).bind fun first => follows_tupleAfter (sliceItem_opens hinner) first

/-- The nodes of a trailer stand behind the expression, up to the end of the trailer. -/
theorem trailer_spans : Spans (trailer inner) fun lo o hi =>
    o.elim (lo ≤ hi) fun x => Arranged lo x.1.parts x.2 ∧ x.2 ≤ hi := by
  have hclosed {lo : Position} (t : Trailer) : Follows lo t.parts
      (do return some (t, (← spanFrom default).stop)) fun o hi =>
        o.elim (lo ≤ hi) fun x => Arranged lo x.1.parts x.2 ∧ x.2 ≤ hi :=
    .span fun hi h => ⟨h, le_rfl⟩
  refine spans_of_follows fun lo => .accept_ite ?_ ?_
  · refine .bind (lays_arguments hinner) fun args => .expect fun _ => ?_
    exact hclosed (.call args.1 args.2)
  · refine .accept_ite ?_ ?_
    · refine .bind (subscripts_opens hinner).lays fun index => .expect fun _ => ?_
      exact hclosed (.subscript index)
    · refine .accept_ite ?_ ?_
      · exact .expect fun name => hclosed (.member name.text name.start)
      · exact .pure fun hi h => h.le

omit hinner in
/-- An expression keeps its beginning when trailers are put around it. -/
theorem arranged_withTrailers {base : Node} {trailers : List (Trailer × Position)}
    (hbase : ReadAs .expression base.start base lo)
    (h : Linked (fun lo x hi => Arranged lo x.1.parts x.2 ∧ x.2 ≤ hi) lo trailers hi) :
    ReadAs .expression base.start (withTrailers base trailers) hi := by
  induction trailers generalizing base lo with
  | nil => exact hbase.mono le_rfl h
  | cons x trailers ih =>
    obtain ⟨mid, ⟨hparts, hstop⟩, hrest⟩ := h
    have hall : Arranged base.start ((.expression, base) :: x.1.parts) x.2 := hbase.append hparts
    have hroles : ((.expression, base) :: x.1.parts).Perm ((x.1.form base).roles .expression) := by
      cases x.1 with
      | call args keywords => exact ((Node.mixed_perm args _).map _).cons _
      | subscript | member => exact .of_eq rfl
    have hstanding : ((.expression, base) :: x.1.parts).map Prod.snd =
        (x.1.form base).standing := by
      cases x.1 <;> simp [Trailer.parts, Trailer.form, Form.standing, Form.parts, Function.comp_def]
    have hnext : ReadAs .expression base.start (.mk ⟨base.start, x.2⟩ .load (x.1.form base)) x.2 :=
      hall.expression le_rfl (hall.lt_of_mem mem_cons_self) hroles hstanding (by cases x.1 <;> rfl)
        (by cases x.1 <;> rfl)
    exact ih (hnext.mono le_rfl hstop) hrest

omit hinner in
theorem literal_begins {form : Token → Form Node} (hparts : ∀ t, (form t).roles .expression = [])
    (hplain : ∀ t, (form t).isPlain = true) : Begins .expression (literal form) :=
  begins_take fun t hlt => follows_node_of hlt.le (Or.inl hlt) (hparts t) (hplain t)

omit hinner in
/-- Adjacent strings are taken one after the other. -/
private theorem strings_eq :
    ∃ (step : Parse (Option Token)) (finish : Position → List Token → Parse Node),
    strings = (Parse.start >>= fun start => many step >>= finish start) ∧ Silent step ∧
    (∀ c, c.current.kind = .string ∨ c.current.kind = .bytes →
      step c = .ok (some c.current, c.advance)) ∧ ∀ start tokens lo, start < lo →
      Follows lo [] (finish start tokens) (ReadAs .expression start) := by
  refine ⟨_, _, rfl, ?_, ?_, ?_⟩
  · refine silent_kind.bind fun kind => .ite ?_ (silent_pure _)
    exact silent_take.bind fun t => silent_pure _
  · intro c hkind
    rw [kind_bind]
    rcases hkind with hkind | hkind <;> rw [hkind] <;> rfl
  · intro start tokens lo hlt
    exact .ite (follows_node hlt rfl rfl) (follows_node hlt rfl rfl)

omit hinner in
theorem strings_opens {c c' : Cursor} {n : Node} (hc : c.Ordered)
    (hkind : c.current.kind = .string ∨ c.current.kind = .bytes) (hrun : strings c = .ok (n, c')) :
    c'.Ordered ∧ c.current.kind.isLayout = false ∧
      ReadAs .expression c.current.start n c'.lastEnd := by
  obtain ⟨step, finish, hstrings, hsilent, hfirst, hfinish⟩ := strings_eq
  have hvisible : c.current.kind.isLayout = false := by
    rcases hkind with hkind | hkind <;> rw [hkind] <;> rfl
  obtain ⟨-, hlt, -⟩ := hc.current_of_visible hvisible
  rw [hstrings, start_bind] at hrun
  obtain ⟨tokens, middle, htokens, hrun⟩ := bind_eq_ok hrun
  obtain ⟨hmiddle, hle⟩ := many_le_of_some hsilent hc.advance (hfirst c hkind) htokens
  rw [Cursor.Ordered.lastEnd_advance_of_visible hvisible] at hle
  obtain ⟨hc', hn⟩ := hfinish c.current.start tokens c.current.stop hlt hmiddle (.nil hle) hrun
  exact ⟨hc', hvisible, hn⟩

theorem parenthesized_begins : Begins .expression (parenthesized inner) := by
  refine begins_take fun opener hlt => .accept_ite ?_ ?_
  · exact follows_node hlt rfl rfl
  refine .kind_begins rfl (yieldExpr_begins hinner) (fun value => ?_) ?_
  · exact .expect fun _ => .pure fun hi h => h.mono hlt.le le_rfl
  refine .bind (element_opens hinner).lays fun first => .focus rfl fun hle => ?_
  have hfirst : opener.start < first.start := hlt.trans_le hle
  refine .silent silent_atClause fun isGenerator => .ite ?_ ?_
  · exact follows_bracketed hinner _ first none _ _ hfirst
  refine .kind_ite ?_ ?_
  · exact .expect fun _ => .pure fun hi h => h.mono hfirst.le le_rfl
  · refine .bind (lays_afterCommas (element_opens hinner).lays) fun more => ?_
    exact .expect fun _ => follows_node hfirst (by simp [Form.roles]) rfl

theorem listDisplay_begins : Begins .expression (listDisplay inner) := by
  refine begins_take fun opener hlt => .accept_ite ?_ ?_
  · exact follows_node hlt rfl rfl
  refine .bind (element_opens hinner).lays fun first => .focus rfl fun hle => ?_
  have hfirst : opener.start < first.start := hlt.trans_le hle
  refine .silent silent_atClause fun isComprehension => .ite ?_ ?_
  · exact follows_bracketed hinner _ first none _ _ hfirst
  · refine .bind (lays_afterCommas (element_opens hinner).lays) fun more => ?_
    exact .expect fun _ => follows_node hfirst (by simp [Form.roles]) rfl

theorem lays_dictEntry : Lays (dictEntry inner) fun e => expressions e.parts := by
  refine lays_of_follows fun lo => .accept_ite ?_ ?_
  · exact .bind (hinner .bitwiseOr).lays fun value => .pure fun hi h => h
  · refine .bind (hinner .test).lays fun key => .expect fun _ => ?_
    exact .bind (hinner .test).lays fun value => .pure fun hi h => h

theorem follows_dictAfter (first : Entry Node) (hlt : start < lo) :
    Follows lo (expressions first.parts) (dictAfter inner start first)
    (ReadAs .expression start) := by
  refine .bind (lays_afterCommas (lays_dictEntry hinner)) fun more => .expect fun _ => ?_
  exact follows_node hlt (by simp [Form.roles, Form.parts, map_flatMap]) rfl

theorem follows_setAfter (first : Node) (hlt : start < first.start) :
    Follows first.start [(.expression, first)] (setAfter inner start first)
    (ReadAs .expression start) := by
  refine .silent silent_atClause fun isComprehension => .ite ?_ ?_
  · exact follows_bracketed hinner _ first none _ _ hlt
  · refine .bind (lays_afterCommas (element_opens hinner).lays) fun more => ?_
    exact .expect fun _ => follows_node hlt (by simp [Form.roles, Form.parts]) rfl

theorem braceDisplay_begins : Begins .expression (braceDisplay inner) := by
  refine begins_take fun opener hlt => .accept_ite ?_ ?_
  · exact follows_node hlt rfl rfl
  refine .accept_ite ?_ ?_
  · exact .bind (hinner .bitwiseOr).lays fun value => follows_dictAfter hinner ⟨none, value⟩ hlt
  refine .bind (element_opens hinner).lays fun first => .focus rfl fun hle => ?_
  have hfirst : opener.start < first.start := hlt.trans_le hle
  refine .accept_ite ?_ ?_
  · refine .bind (hinner .test).lays fun value => .silent silent_atClause fun isComprehension =>
      .ite ?_ ?_
    · exact follows_bracketed hinner _ first (some value) _ _ hfirst
    · exact follows_dictAfter hinner ⟨some first, value⟩ hfirst
  · exact follows_setAfter hinner first hfirst

theorem atom_opens : Opens .expression (atom inner) := by
  refine opens_kind fun k => ?_
  split
  · have hname (id : Text) : Role.expression.Suits .load (.name id) := .expression rfl (by simp)
    exact (begins_name .expression hname fun t => .pure fun hi h => h).at rfl
  · exact (literal_begins (fun _ => rfl) fun _ => rfl).at rfl
  · exact (literal_begins (fun _ => rfl) fun _ => rfl).at rfl
  · exact (literal_begins (fun _ => rfl) fun _ => rfl).at rfl
  · exact fun c n c' hc hkind hrun => strings_opens hc (Or.inl hkind) hrun
  · exact fun c n c' hc hkind hrun => strings_opens hc (Or.inr hkind) hrun
  · exact (literal_begins (fun _ => rfl) fun _ => rfl).at rfl
  · exact (literal_begins (fun _ => rfl) fun _ => rfl).at rfl
  · exact (literal_begins (fun _ => rfl) fun _ => rfl).at rfl
  · exact (parenthesized_begins hinner).at rfl
  · exact (listDisplay_begins hinner).at rfl
  · exact (braceDisplay_begins hinner).at rfl
  · exact opens_reject.at

theorem power_opens : Opens .expression (power inner) := by
  have htrailers (base : Node) : Follows base.start [(.expression, base)] (many (trailer inner))
      fun trailers =>
      ReadAs .expression base.start (withTrailers base trailers) :=
    fun c trailers c' hc hbase hrun => (many_spans (trailer_spans hinner) hc hrun).imp id
      (arranged_withTrailers hbase)
  have hraised (base : Node) : Follows base.start [(.expression, base)] (do
      if ← accept .starStar then
        let exponent ← inner .factor
        node base.start (.binary .pow base exponent)
      else return base) (ReadAs .expression base.start) := by
    refine .accept_ite ?_ ?_
    · exact .bind (hinner .factor).lays fun exponent => follows_node_at rfl rfl
    · exact .pure fun hi h => h
  intro c n c' hc hrun
  rw [power, start_bind] at hrun
  rcases accept_bind_eq_ok hrun with ⟨hkind, hrun⟩ | ⟨-, hrun⟩
  · refine taken_opens hc (by rw [hkind]; rfl) (fun hlt => ?_) hrun
    refine .bind (atom_opens hinner).lays fun base => .focus rfl fun hle =>
      (htrailers base).then fun trailers => ?_
    have hawait : Follows base.start [(.expression, withTrailers base trailers)]
        (node c.current.start (.await (withTrailers base trailers)))
          (ReadAs .expression c.current.start) :=
      follows_node (hlt.trans_le hle) rfl rfl
    rw [if_pos rfl]
    refine hawait.then fun awaited => .focus rfl fun hawaited => ?_
    exact (hraised awaited).mono fun m hi hm => hm.mono hawaited le_rfl
  · refine (atom_opens hinner).bind (fun base => (htrailers base).then fun trailers => ?_) hc hrun
    rw [if_neg Bool.false_ne_true]
    exact .pure_bind (.focus rfl fun hle => (hraised _).mono fun m hi hm => hm.mono hle le_rfl)

theorem factor_opens : Opens .expression (factor inner) := by
  intro c n c' hc hrun
  rw [factor, start_bind, kind_bind] at hrun
  cases hsign : c.current.kind.sign? with
  | none =>
    rw [hsign] at hrun
    exact power_opens hinner hc hrun
  | some op =>
    simp only [hsign] at hrun
    rw [take_bind] at hrun
    have hvisible : c.current.kind.isLayout = false := by
      revert hsign
      cases c.current.kind <;> simp [TokenKind.sign?, TokenKind.isLayout]
    refine taken_opens hc hvisible (fun hlt => ?_) hrun
    exact .bind (hinner .factor).lays fun operand => follows_node hlt rfl rfl

omit hinner in
/-- Operands are gathered to the left, each up to its own end. -/
theorem arranged_foldl {first : Node} {more : List (BinaryOp × Node × Position)}
    (hfirst : ReadAs .expression first.start first lo)
    (h : Linked (fun lo x hi => ReadAs .expression lo x.2.1 x.2.2 ∧ x.2.2 ≤ hi) lo more hi) :
    ReadAs .expression first.start
      (more.foldl (fun left x => .mk ⟨left.start, x.2.2⟩ .load (.binary x.1 left x.2.1)) first)
        hi := by
  induction more generalizing first lo with
  | nil => exact hfirst.mono le_rfl h
  | cons x more ih =>
    obtain ⟨mid, ⟨hright, hstop⟩, hrest⟩ := h
    have hboth := hfirst.append hright
    have hnext : ReadAs .expression first.start
      (.mk ⟨first.start, x.2.2⟩ .load (.binary x.1 first x.2.1)) x.2.2 :=
      hboth.plain le_rfl (hboth.lt_of_mem mem_cons_self) rfl rfl
    exact ih (hnext.mono le_rfl hstop) hrest

omit hinner in
theorem chain_opens {operator? : TokenKind → Option BinaryOp} {operand : Parse Node}
    (h : Opens .expression operand) :
    Opens .expression (chain operator? operand) := by
  refine h.bind fun first c n c' hc hfirst hrun => ?_
  obtain ⟨more, middle, hmore, hresult⟩ := bind_eq_ok hrun
  cases hresult
  refine (many_spans ?_ hc hmore).imp id (arranged_foldl hfirst)
  refine spans_of_follows fun lo => .silent silent_kind fun kind => ?_
  split
  · exact .pure fun hi h => h.le
  · refine .silent silent_take fun _ => .bind h.lays fun right => ?_
    exact .span fun hi h => ⟨h, le_rfl⟩

omit hinner in
theorem silent_comparisonOp : Silent comparisonOp := by
  refine silent_kind.bind fun kind => ?_
  split
  · exact silent_take.bind fun _ => (silent_accept _).bind fun _ => silent_pure _
  · exact silent_take.bind fun _ => silent_pure _
  · refine silent_nextKind.bind fun next => .ite ?_ (silent_pure _)
    exact silent_take.bind fun _ => silent_take.bind fun _ => silent_pure _

theorem bitwiseOr_opens : Opens .expression (bitwiseOr inner) :=
  chain_opens (chain_opens
    (chain_opens (chain_opens (chain_opens (chain_opens (factor_opens hinner))))))

theorem comparison_opens : Opens .expression (comparison inner) := by
  refine (bitwiseOr_opens hinner).bind fun left => ?_
  refine .bind (lays_many (?_ : Lays _ fun o : Option (Comparison Node) =>
      o.toList.flatMap fun x => [(.expression, x.operand)])) fun rest => ?_
  · refine lays_of_follows fun lo => .silent silent_comparisonOp fun op => ?_
    split
    · exact .pure fun hi h => h
    · exact .bind (hinner .bitwiseOr).lays fun operand => .pure fun hi h => h
  · refine .ite (.pure fun hi h => h.head) ?_
    exact follows_node_at (by simp [Form.roles, Form.parts, Function.comp_def]) rfl

theorem notTest_opens : Opens .expression (notTest inner) := by
  intro c n c' hc hrun
  rw [notTest, start_bind] at hrun
  rcases accept_bind_eq_ok hrun with ⟨hkind, hrun⟩ | ⟨-, hrun⟩
  · refine taken_opens hc (by rw [hkind]; rfl) (fun hlt => ?_) hrun
    exact .bind (hinner .notTest).lays fun operand => follows_node hlt rfl rfl
  · exact comparison_opens hinner hc hrun

omit hinner in
theorem boolean_opens (op : BoolOp) (word : TokenKind) {operand : Parse Node}
    (h : Opens .expression operand) :
    Opens .expression (boolean op word operand) := by
  refine h.bind fun first => .bind (lays_many (lays_behind word h.lays)) fun more => .ite ?_ ?_
  · exact .pure fun hi h => h.head
  · exact follows_node_at (by simp [Form.roles, Form.parts]) rfl

theorem orTest_opens : Opens .expression (orTest inner) :=
  boolean_opens _ _ (boolean_opens _ _ (notTest_opens hinner))

theorem lambda_begins : Begins .expression (lambda inner) := by
  refine begins_take fun word hlt => .bind (lays_params hinner _ _) fun params => ?_
  refine .expect fun _ => .bind (hinner .test).lays fun body => ?_
  exact follows_node hlt rfl rfl

theorem test_opens : Opens .expression (test inner) := by
  refine opens_kind_ite rfl (lambda_begins hinner) ((orTest_opens hinner).bind fun body => ?_)
  refine .accept_ite ?_ ?_
  · refine .bind (hinner .orTest).lays fun condition => .expect fun _ => ?_
    exact .bind (hinner .test).lays fun orElse => follows_node_at rfl rfl
  · exact .pure fun hi h => h

theorem rule_opens (level : Level) : Opens .expression (rule inner level) := by
  cases level with
  | test => exact test_opens hinner
  | orTest => exact orTest_opens hinner
  | notTest => exact notTest_opens hinner
  | bitwiseOr => exact bitwiseOr_opens hinner
  | factor => exact factor_opens hinner

omit hinner

theorem expressionWithin_opens (depth : Nat) (level : Level) :
    Opens .expression (expressionWithin depth level) := by
  induction depth generalizing level with
  | zero => exact opens_reject
  | succ depth ih => exact rule_opens (fun level => ih level) level

/-- Expressions of every level are plain nested nodes that begin with the current token. -/
theorem expression_opens (level : Level) : Opens .expression (expression level) :=
  fun c _ _ hc hrun => expressionWithin_opens (c.ahead + 1) level hc hrun

end NameInference.Grammar

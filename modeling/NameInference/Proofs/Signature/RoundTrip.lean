import NameInference.Proofs.Signature.Spelling
import NameInference.Proofs.Syntax.Atoms
import NameInference.Proofs.Token.Lossless

/-!
# Signatures read back

The line of a function with a given signature is read as one function. Its parameters have the kinds
of the signature again, because the markers between them are where the grammar changes the kinds.
Hints, defaults and the type of the result are single words, and the source text of each is the
word.
-/

namespace NameInference

open Cursor Grammar List Parse

/-- A token that is not layout has its text in its span. -/
def Token.Spelt (text : Span → Text) (t : Token) : Prop :=
  t.kind.isLayout = false → text t.span = t.text

/-- The node is a name or an integer that stands in the source as it is. -/
structure Node.IsWord (text : Span → Text) (t : Text) (n : Node) : Prop where
  form_eq : n.form = .name t ∨ n.form = .int t
  text_eq : text n.span = t
  ne_nil : t ≠ []

/-- The parts of a parameter are those that are shown. -/
structure SignatureParam.Parts (text : Span → Text) (p : SignatureParam) (name : Node)
    (hint default : Option Node) :
    Prop where
  name_eq : name.id? = some p.name
  hint : Option.Rel (Node.IsWord text) p.hint hint
  default : Option.Rel (Node.IsWord text) p.default default

/-- The node is the parameter, as one of the given kind. -/
def SignatureParam.Shows (text : Span → Text) (kind : ParamKind) (p : SignatureParam) (n : Node) :
    Prop :=
  ∃ span name hint default, n = .mk span .load (.param kind name hint default) ∧
    p.Parts text name hint default

namespace Grammar

variable {text : Span → Text} {c : Cursor} {rest : List Symbol}

/-- A word before a symbol that ends it is an expression. -/
theorem expression_word {t : Text} {x : Symbol} (ht : t.IsWord) (hall : c.All (Token.Spelt text))
    (hc : c.symbols = Symbol.word t :: x :: rest) (hx : x.1 ∈ TokenKind.testEnds) :
    ∃ n, expression .test c = .ok (n, c.advance) ∧ n.IsWord text t := by
  have htext : c.current.text = t := current_text hc
  have hend : c.advance.current.kind ∈ TokenKind.testEnds := current_kind (symbols_advance hc) ▸ hx
  have hspelt := hall c.current mem_cons_self
  rw [Token.Spelt, htext] at hspelt
  have hkind := current_kind hc
  obtain ⟨id, hid⟩ | ⟨n, hn⟩ := ht.word_eq
  · have hident : c.current.kind = .ident := hkind.trans (congrArg Prod.fst hid)
    have hatom : atom (expressionWithin c.ahead) c = .ok (c.current.toName .load, c.advance) := by
      rw [atom, kind_bind, hident]
      rfl
    refine ⟨_, test_of_atom (by rw [hident]; rfl) hatom hend, .inl ?_, hspelt (by rw [hident]; rfl),
      ht.ne_nil⟩
    exact congrArg Form.name htext
  · have hint : c.current.kind = .int := hkind.trans (congrArg Prod.fst hn)
    have hlast : c.advance.lastEnd = c.current.stop := by
      obtain ⟨current, tokens, lastEnd⟩ := c
      have hvisible : current.kind.isLayout = false := by
        rw [show current.kind = .int from hint]; rfl
      cases tokens <;> simp [Cursor.advance, hvisible]
    have hatom : atom (expressionWithin c.ahead) c =
        .ok (.mk c.current.span .load (.int c.current.text), c.advance) := by
      rw [atom, kind_bind, hint]
      simp only
      rw [literal, take_bind]
      exact congrArg (fun stop => Except.ok (Node.mk ⟨_, stop⟩ _ _, _)) hlast
    refine ⟨_, test_of_atom (by rw [hint]; rfl) hatom hend, .inr ?_, hspelt (by rw [hint]; rfl),
      ht.ne_nil⟩
    exact congrArg Form.int htext

/-- The symbols end an expression, and the first of them is not of the given kind. -/
def endsWithout (kind : TokenKind) (rest : List Symbol) : Bool :=
  rest.head?.any fun x => TokenKind.testEnds.contains x.1 && x.1 != kind

theorem exists_cons_of_endsWithout {kind : TokenKind} (h : endsWithout kind rest = true) :
    ∃ x more, rest = x :: more ∧ x.1 ∈ TokenKind.testEnds ∧ x.1 ≠ kind := by
  cases rest with
  | nil => cases h
  | cons x more => exact ⟨x, more, rfl, by simpa [endsWithout] using h⟩

/-- A word behind its sign is read if it is there. -/
theorem behind_reads {sign : Symbol} (kind : TokenKind) (hsign : sign.1 = kind) {o : Option Text}
    (ho : ∀ t ∈ o, t.IsWord) :
    ReadsAmong (Token.Spelt text) (behind kind (expression .test)) (Signature.optional sign o)
      (endsWithout kind) (Option.Rel (Node.IsWord text) o) := by
  intro c rest hall hc hrest
  obtain ⟨x, more, rfl, hx, hne⟩ := exists_cons_of_endsWithout hrest
  cases o with
  | none =>
    have hkind : c.current.kind ≠ kind := current_kind hc ▸ hne
    exact ⟨none, c, behind_of_ne hkind _, hall, hc, .none⟩
  | some t =>
    have hin := symbols_advance hc
    obtain ⟨n, hn, hword⟩ := expression_word (ho t rfl) hall.advance hin hx
    exact ⟨some n, _, behind_of_eq ((current_kind hc).trans hsign) hn, hall.advance.advance,
      symbols_advance hin, .some hword⟩

/-- A comma or a closing parenthesis follows. -/
def endsItem (rest : List Symbol) : Bool := rest.head?.any fun x => x.1 == .comma || x.1 == .rparen

theorem endsWithout_of_endsItem {kind : TokenKind} (hkind : kind = .colon ∨ kind = .equal)
    (h : endsItem rest = true) : endsWithout kind rest = true := by
  cases rest with
  | nil => cases h
  | cons x more =>
    have hx : x.1 = .comma ∨ x.1 = .rparen := by simpa [endsItem] using h
    rcases hkind with rfl | rfl <;> rcases hx with hx | hx <;> simp [endsWithout, hx,
      TokenKind.testEnds]

/-- The item that is read for a written one. A kind that only markers tell is read as if there were
none. -/
def Reread (text : Span → Text) : Signature.Item → ParamItem → Prop
  | .slash, item => item = .slash
  | .star, item => item = .bareStar
  | .param p, item => ∃ span name hint default,
    item = .param span (if p.kind.isVariadic then p.kind else .positionalOrKeyword) name hint
      default ∧ p.Parts text name hint default

theorem namedParam_reads {p : SignatureParam} (h : (Signature.Item.param p).IsPlain)
    (start : Position) (kind : ParamKind) :
    ReadsAmong (Token.Spelt text) (namedParam expression start kind true)
      (Symbol.word p.name ::
        (Signature.optional Symbol.colon p.hint ++ Signature.optional Symbol.equal p.default))
      endsItem fun item => ∃ span name hint default, item = .param span kind name hint default ∧
        p.Parts text name hint default := by
  intro c rest hall hc hrest
  obtain ⟨hname, hhint, hdefault⟩ := h
  have hends := endsWithout_of_endsItem (.inr rfl) hrest
  have hmiddle : endsWithout .colon (Signature.optional Symbol.equal p.default ++ rest) = true := by
    cases p.default with
    | none => exact endsWithout_of_endsItem (.inl rfl) hrest
    | some t => rfl
  obtain ⟨id, hid⟩ := hname.word_eq
  have hkind : c.current.kind = .ident := (current_kind hc).trans (congrArg Prod.fst hid)
  have hin : c.advance.symbols = Signature.optional Symbol.colon p.hint ++
      (Signature.optional Symbol.equal p.default ++ rest) := by
    rw [← append_assoc]
    refine symbols_advance_of_ne_nil hc ?_
    obtain ⟨x, more, rfl, -⟩ := exists_cons_of_endsWithout hends
    simp
  obtain ⟨hint, c₁, hrun₁, hall₁, hc₁, hhint⟩ :=
    behind_reads .colon rfl hhint c.advance _ hall.advance hin hmiddle
  obtain ⟨default, c₂, hrun₂, hall₂, hc₂, hdefault⟩ :=
    behind_reads .equal rfl hdefault c₁ rest hall₁ hc₁ hends
  refine ⟨_, c₂, ?_, hall₂, hc₂, ⟨start, c₂.lastEnd⟩, c.current.toName .store, hint, default, rfl,
    ?_, hhint, hdefault⟩
  · rw [namedParam, expect_bind hkind, if_pos rfl, bind_of_ok hrun₁]
    beta_reduce
    rw [bind_of_ok hrun₂]
    rfl
  · exact congrArg some (current_text hc)

theorem paramItem_reads {item : Signature.Item} (h : item.IsPlain) :
    ReadsAmong (Token.Spelt text) (paramItem expression true) item.symbols endsItem
      (Reread text item) := by
  intro c rest hall hc hrest
  have hne : rest ≠ [] := by
    rintro rfl
    cases hrest
  cases item with
  | slash =>
    have hkind : c.current.kind = .slash := current_kind hc
    refine ⟨.slash, c.advance, ?_, hall.advance, symbols_advance_of_ne_nil hc hne, rfl⟩
    rw [paramItem, token_bind, accept_ite_of_eq hkind]
    rfl
  | star =>
    have hkind : c.current.kind = .star := current_kind hc
    have hin : c.advance.symbols = rest := symbols_advance_of_ne_nil hc hne
    have hnext : c.advance.current.kind ≠ .ident := by
      obtain ⟨x, more, rfl, hx, -⟩ :=
        exists_cons_of_endsWithout (endsWithout_of_endsItem (.inl rfl) hrest)
      rw [current_kind hin]
      rintro hident
      rw [hident] at hx
      exact absurd hx (by decide)
    refine ⟨.bareStar, c.advance, ?_, hall.advance, hin, rfl⟩
    rw [paramItem, token_bind, accept_ite_of_ne (by simp [hkind]),
      accept_ite_of_ne (by simp [hkind]), accept_ite_of_eq hkind, kind_bind,
      if_pos (by simpa using hnext)]
    rfl
  | param p =>
    rw [Signature.Item.symbols_param, append_assoc] at hc
    obtain ⟨id, hid⟩ := h.1.word_eq
    -- Behind the stars, if there are any, all kinds are read alike.
    cases hkind : p.kind with
    | varPositional =>
      rw [hkind] at hc
      have hstar : c.current.kind = .star := current_kind hc
      have hin := symbols_advance hc
      have hname : c.advance.current.kind = .ident :=
        (current_kind hin).trans (congrArg Prod.fst hid)
      obtain ⟨item, c', hrun, hall', hc', hitem⟩ :=
        namedParam_reads h c.current.start .varPositional c.advance rest hall.advance hin hrest
      refine ⟨item, c', ?_, hall', hc', by simpa [Reread, hkind, ParamKind.isVariadic] using hitem⟩
      rw [paramItem, token_bind, accept_ite_of_ne (by simp [hstar]),
        accept_ite_of_ne (by simp [hstar]), accept_ite_of_eq hstar, kind_bind,
        if_neg (by simp [hname])]
      exact hrun
    | varKeyword =>
      rw [hkind] at hc
      have hstars : c.current.kind = .starStar := current_kind hc
      obtain ⟨item, c', hrun, hall', hc', hitem⟩ :=
        namedParam_reads h c.current.start .varKeyword c.advance rest
        hall.advance (symbols_advance hc) hrest
      refine ⟨item, c', ?_, hall', hc', by simpa [Reread, hkind, ParamKind.isVariadic] using hitem⟩
      rw [paramItem, token_bind, accept_ite_of_ne (by simp [hstars]), accept_ite_of_eq hstars]
      exact hrun
    | positionalOnly | positionalOrKeyword | keywordOnly =>
      rw [hkind] at hc
      have hname : c.current.kind = .ident := (current_kind hc).trans (congrArg Prod.fst hid)
      obtain ⟨item, c', hrun, hall', hc', hitem⟩ :=
        namedParam_reads h c.current.start .positionalOrKeyword c rest hall hc hrest
      refine ⟨item, c', ?_, hall', hc', by simpa [Reread, hkind, ParamKind.isVariadic] using hitem⟩
      rw [paramItem, token_bind, accept_ite_of_ne (by simp [hname]),
        accept_ite_of_ne (by simp [hname]), accept_ite_of_ne (by simp [hname])]
      exact hrun

/-- What an item of a parameter list adds to the parameters before it. -/
def ParamItem.after (state : List Node × Bool) (item : ParamItem) : List Node × Bool :=
  match item with
  | .slash => (state.1.map ParamItem.beforeSlash, state.2)
  | .bareStar => (state.1, true)
  | .param span kind name hint default =>
    let kind := if kind == .positionalOrKeyword && state.2 then .keywordOnly else kind
    (state.1 ++ [.mk span .load (.param kind name hint default)], state.2 || kind == .varPositional)

theorem ParamItem.resolve_eq (found : List ParamItem) :
    ParamItem.resolve found = (found.foldl ParamItem.after ([], false)).1 := rfl

section Kinds

variable {params : List SignatureParam} {found : List ParamItem}

/-- Parameters before a slash are read as if they could be named, until the slash comes. -/
theorem fold_positionalOnly (hkinds : ∀ p ∈ params, p.kind = .positionalOnly)
    {more : List Signature.Item} (h : List.Forall₂ (Reread text) (params.map .param ++ more) found)
    (before : List Node) :
    ∃ nodes later, found.foldl ParamItem.after (before, false) = later.foldl ParamItem.after
      (before ++ nodes, false) ∧
      List.Forall₂ (fun p n => p.Shows text p.kind (ParamItem.beforeSlash n)) params nodes ∧
      List.Forall₂ (Reread text) more later := by
  induction params generalizing found before with
  | nil => exact ⟨[], found, by rw [append_nil], .nil, h⟩
  | cons p params ih =>
    obtain ⟨hp, hkinds⟩ := forall_mem_cons.mp hkinds
    cases h with
    | @cons _ item _ found hitem hrest =>
      obtain ⟨span, name, hint, default, rfl, hparts⟩ := hitem
      obtain ⟨nodes, later, hfold, hnodes, hlater⟩ := ih hkinds hrest
        (before ++ [.mk span .load (.param .positionalOrKeyword name hint default)])
      rw [append_assoc] at hfold
      refine ⟨.mk span .load (.param .positionalOrKeyword name hint default) :: nodes, later, ?_,
        .cons ⟨span, name, hint, default, by rw [hp]; rfl, hparts⟩ hnodes, hlater⟩
      rw [foldl_cons, hp]
      exact hfold

/-- Behind a star only keywords name parameters. -/
theorem keywordOnly_le {kind later : ParamKind} (h : ParamKind.varPositional.rank ≤ kind.rank)
    (hle : kind.rank ≤ later.rank) (honce : kind = later → kind.isVariadic = false) :
    ParamKind.keywordOnly.rank ≤ later.rank := by
  revert h hle honce
  cases kind <;> cases later <;> decide

/-- The other parameters get their kinds from the star before them. -/
theorem fold_items {starred : Bool}
    (hordered : params.Pairwise fun p q =>
      p.kind.rank ≤ q.kind.rank ∧ (p.kind = q.kind → p.kind.isVariadic = false))
    (hkinds : ∀ p ∈ params, p.kind ≠ .positionalOnly)
    (hstarred : starred = true → ∀ p ∈ params, ParamKind.keywordOnly.rank ≤ p.kind.rank)
    (h : List.Forall₂ (Reread text) (Signature.items starred params) found) (before : List Node) :
    ∃ nodes, (found.foldl ParamItem.after (before, starred)).1 = before ++ nodes ∧
      List.Forall₂ (fun p n => p.Shows text p.kind n) params nodes := by
  induction params generalizing starred found before with
  | nil =>
    cases h
    exact ⟨[], by simp, .nil⟩
  | cons p params ih =>
    obtain ⟨hp, hordered⟩ := pairwise_cons.mp hordered
    obtain ⟨hne, hkinds⟩ := forall_mem_cons.mp hkinds
    have hunstarred (hrank : p.kind.rank ≤ ParamKind.varPositional.rank) : starred = false := by
      rw [← Bool.not_eq_true]
      intro hstar
      exact absurd ((hstarred hstar p mem_cons_self).trans hrank) (by decide)
    -- A star that stands before the parameter only tells that it is named by a keyword.
    obtain ⟨item, later, hfold, hitem, hlater⟩ : ∃ item later, found.foldl ParamItem.after
      (before, starred) =
        (item :: later).foldl ParamItem.after (before, starred || p.kind == .keywordOnly) ∧
        Reread text (.param p) item ∧ List.Forall₂ (Reread text)
          (Signature.items (starred || p.kind == .varPositional || p.kind == .keywordOnly) params)
            later := by
      rw [Signature.items_cons hne] at h
      split at h
      next hstar =>
        obtain ⟨hkind, rfl⟩ :
            (p.kind == .keywordOnly) = true ∧ starred = false := by simpa using hstar
        cases h with
        | cons hmark h =>
          cases h with
          | cons hitem hlater =>
            obtain rfl := hmark
            rw [hkind] at hlater ⊢
            exact ⟨_, _, rfl, hitem, hlater⟩
      next hstar =>
        have hsame : (starred || p.kind == .keywordOnly) = starred := by
          cases starred <;> simp_all
        cases h with
        | cons hitem hlater => exact ⟨_, _, by rw [hsame], hitem, hlater⟩
    obtain ⟨span, name, hint, default, rfl, hparts⟩ := hitem
    have hstate : ParamItem.after (before, starred || p.kind == .keywordOnly)
        (.param span (if p.kind.isVariadic then p.kind else .positionalOrKeyword) name hint
          default) = (before ++ [.mk span .load (.param p.kind name hint default)],
          starred || p.kind == .varPositional || p.kind == .keywordOnly) := by
      cases hkind : p.kind with
      | positionalOnly => exact absurd hkind hne
      | positionalOrKeyword | varPositional =>
        rw [hunstarred (by simp [hkind, ParamKind.rank])]
        rfl
      | keywordOnly | varKeyword => cases starred <;> rfl
    have hbehind (hafter : (starred || p.kind == .varPositional || p.kind == .keywordOnly) = true) :
        ∀ q ∈ params, ParamKind.keywordOnly.rank ≤ q.kind.rank := by
      intro q hq
      have hrank : ParamKind.varPositional.rank ≤ p.kind.rank := by
        simp only [Bool.or_eq_true, beq_iff_eq] at hafter
        rcases hafter with (hafter | hafter) | hafter
        · exact (by decide : ParamKind.varPositional.rank ≤ ParamKind.keywordOnly.rank).trans
            (hstarred hafter p mem_cons_self)
        · rw [hafter]
        · rw [hafter]
          decide
      exact keywordOnly_le hrank (hp q hq).1 (hp q hq).2
    obtain ⟨nodes, hnodes, hshows⟩ := ih hordered hkinds hbehind hlater
      (before ++ [.mk span .load (.param p.kind name hint default)])
    refine ⟨_ :: nodes, ?_, .cons ⟨span, name, hint, default, rfl, hparts⟩ hshows⟩
    rw [hfold, foldl_cons, hstate, hnodes, append_assoc]
    rfl

theorem resolve_items
    (hordered : params.Pairwise fun p q =>
      p.kind.rank ≤ q.kind.rank ∧ (p.kind = q.kind → p.kind.isVariadic = false))
    (h : List.Forall₂ (Reread text) (Signature.items false params) found) :
    List.Forall₂ (fun p n => p.Shows text p.kind n) params (ParamItem.resolve found) := by
  obtain ⟨front, rest, rfl, hfront, hrest⟩ := exists_split_of_pairwise (hordered.imp And.left) 1
  have hfront : ∀ p ∈ front, p.kind = .positionalOnly := by
    intro p hp
    have hrank := hfront p hp
    revert hrank
    cases p.kind <;> decide
  have hrest : ∀ p ∈ rest, p.kind ≠ .positionalOnly := by
    intro p hp hkind
    have hrank := hrest p hp
    rw [hkind] at hrank
    exact absurd hrank (by decide)
  have hordered := (pairwise_append.mp hordered).2.1
  rw [ParamItem.resolve_eq]
  by_cases hne : front = []
  · subst hne
    obtain ⟨nodes, hnodes, hshows⟩ := fold_items hordered hrest (by simp) h []
    rw [hnodes]
    exact hshows
  · rw [Signature.items_append hfront hne hrest] at h
    obtain ⟨nodes, later, hfold, hnodes, hlater⟩ := fold_positionalOnly hfront h []
    cases hlater with
    | cons hslash hlater =>
      obtain rfl := hslash
      obtain ⟨more, hmore, hshows⟩ :=
        fold_items hordered hrest (by simp) hlater (nodes.map ParamItem.beforeSlash)
      rw [hfold, foldl_cons]
      exact hmore ▸ rel_append (List.forall₂_map_right_iff.mpr hnodes) hshows

end Kinds

theorem params_reads {s : Signature} (h : s.Canonical) :
    ReadsAmong (Token.Spelt text) (params expression .rparen true)
      (separated Symbol.comma Signature.Item.symbols (Signature.items false s.params)) closes
      (List.Forall₂ (fun p n => p.Shows text p.kind n) s.params) := by
  have hcloses (rest : List Symbol) (hrest : closes rest = true) : endsItem rest = true := by
    obtain ⟨y, more, rfl, hy⟩ := exists_cons_of_closes hrest
    simp [endsItem, hy]
  have hspell : ∀ item ∈ Signature.items false s.params, ∃ x more, item.symbols = x :: more ∧
      x.1 ≠ .rparen := by
    intro item hitem
    cases item with
    | slash | star => exact ⟨_, _, rfl, by decide⟩
    | param p =>
      obtain ⟨id, hid⟩ := (h.isPlain _ hitem).1.word_eq
      have hident : (Symbol.word p.name).1 ≠ .rparen := by simp [hid, Symbol.ident]
      rw [Signature.Item.symbols_param]
      cases p.kind with
      | varPositional | varKeyword => exact ⟨_, _, rfl, by decide⟩
      | positionalOnly | positionalOrKeyword | keywordOnly => exact ⟨_, _, rfl, hident⟩
  intro c rest hall hc hrest
  obtain ⟨found, c', hrun, hall, hc', hfound⟩ :=
    betweenCommas_readsAmong endsItem rfl hcloses (fun _ => rfl)
    (fun item hitem => paramItem_reads (h.isPlain item hitem)) hspell c rest hall hc hrest
  refine ⟨_, c', ?_, hall, hc', resolve_items h.ordered hfound⟩
  rw [params, bind_of_ok hrun]
  rfl

/-- A block of one word is read as that statement. -/
theorem suite_pass (statement : Parse (List Node))
    (hc : c.symbols = [Symbol.passWord, Symbol.newline, Symbol.finish]) :
    ∃ body c', suite statement c = .ok (body, c') ∧ c'.symbols = [Symbol.finish] := by
  have hpass : c.current.kind = .kwPass := current_kind hc
  have hin := symbols_advance hc
  have hnewline : c.advance.current.kind = .newline := current_kind hin
  have hsmall : smallStatement c = .ok (.mk ⟨c.current.start, c.advance.lastEnd⟩ .load .pass,
      c.advance) := by
    rw [smallStatement, kind_bind, hpass]
    rfl
  refine ⟨[.mk ⟨c.current.start, c.advance.lastEnd⟩ .load .pass], c.advance.advance, ?_,
    symbols_advance hin⟩
  rw [suite, accept_bind_of_ne (by simp [hpass]), if_pos (by simp)]
  exact simpleStatements_of_small hsmall hnewline

/-- The line is read as a function with the parameters and the result of the signature. -/
theorem functionDef_reads {s : Signature} (h : s.Canonical) (statement : Parse (List Node))
    (hall : c.All (Token.Spelt text))
    (hc : c.symbols = Symbol.defWord :: s.lineSymbols ++ [Symbol.newline, Symbol.finish]) :
    ∃ span colon name params returns body c', functionDef statement [] c =
        .ok (.mk span .load (.functionDef false colon [] name params returns body), c') ∧
      c'.symbols = [Symbol.finish] ∧ name.id? = some s.name ∧
      List.Forall₂ (fun p n => p.Shows text p.kind n) s.params params ∧
      Option.Rel (Node.IsWord text) s.returns returns := by
  simp only [Signature.lineSymbols, cons_append, append_assoc, nil_append] at hc
  have hdef : c.current.kind = .kwDef := current_kind hc
  have hin := symbols_advance hc
  obtain ⟨id, hid⟩ := h.name.word_eq
  have hname : c.advance.current.kind = .ident := (current_kind hin).trans (congrArg Prod.fst hid)
  have hbound : bound .functionName c.advance =
      .ok (c.advance.current.toName .store, c.advance.advance) := by
    rw [bound, expect_bind hname]
    rfl
  have hopen := symbols_advance hin
  have hparen : c.advance.advance.current.kind = .lparen := current_kind hopen
  have hlist := symbols_advance_of_ne_nil hopen (by simp)
  obtain ⟨params, c₁, hparams, hall₁, hc₁, hshows⟩ :=
    params_reads h _ _ hall.advance.advance.advance hlist rfl
  have hclose : c₁.current.kind = .rparen := current_kind hc₁
  have hclosed := symbols_advance_of_ne_nil hc₁ (by simp)
  obtain ⟨returns, c₂, hreturns, -, hc₂, hword⟩ :=
    behind_reads .arrow rfl h.returns _ _ hall₁.advance hclosed rfl
  have hcolon : c₂.current.kind = .colon := current_kind hc₂
  obtain ⟨body, c', hsuite, hc'⟩ := suite_pass statement (symbols_advance hc₂)
  refine ⟨⟨c.current.start, c'.lastEnd⟩, c₂.current.start, c.advance.current.toName .store, params,
    returns, body, c', ?_, hc', congrArg some (current_text hin), hshows, hword⟩
  rw [functionDef, start_bind, accept_bind_of_ne (by simp [hdef]), expect_bind hdef,
    bind_of_ok hbound, expect_bind hparen, bind_of_ok hparams, expect_bind hclose,
    bind_of_ok hreturns, expect_bind hcolon, bind_of_ok hsuite]
  rfl

end Grammar

/-- In a source of one line the text of a span is what stands between its columns. -/
theorem Module.text_of_spells {m : Module} {line : Text} (hlines : m.lines = [line]) {t : Token}
    (h : t.Spells [line]) : m.text t.span = t.text := by
  have hon {p : Position} (hp : Lines.HasPosition [line] p) : ∃ i, p = ⟨1, i + 1⟩ ∧
      i ≤ line.length := by
    obtain ⟨row, hrow, hcol, hend⟩ := hp
    obtain ⟨hline, rfl⟩ : p.line = 1 ∧ row = line := by simpa [Lines.numbered] using hrow
    refine ⟨p.col - 1, ?_, by omega⟩
    rw [Nat.sub_add_cancel hcol, ← hline]
  obtain ⟨i, hi, -⟩ := hon h.hasStart
  obtain ⟨j, hj, hjle⟩ := hon h.hasStop
  have hij : i ≤ j := by
    have hlt := h.start_lt_stop
    rw [hi, hj, Position.mk_lt_mk_same] at hlt
    omega
  rw [h.text_eq, Lines.between_eq_slice h.hasStop, hi, hj, Lines.slice_line (k := 0) rfl hij hjle]
  have hspan : t.span = ⟨⟨1, i + 1⟩, ⟨1, j + 1⟩⟩ := by rw [← hi, ← hj]; rfl
  simp [Module.text, hlines, hspan, Text.joined, drop_take]

namespace Signature

variable {module : Module}

theorem partText?_of_isWord {o : Option Text} {part : Option Node}
    (h : Option.Rel (Node.IsWord module.text) o part) (place : Place) (i : Nat) :
    partText? module (part.map (place.enter i)) = o := by
  cases h with
  | none => rfl
  | some hword => simp [partText?, Place.enter, hword.text_eq, hword.ne_nil]

theorem paramOf_of_shows {p : SignatureParam} {n : Node} (h : p.Shows module.text p.kind n)
    {place : Place} (hplace : place.node = n) : paramOf module place = p := by
  obtain ⟨span, name, hint, default, rfl, hparts⟩ := h
  rw [paramOf, Place.form, hplace]
  simp only [Node.form, Form.number, Form.numberOption, partText?_of_isWord hparts.hint,
    partText?_of_isWord hparts.default]
  simp only [Place.id?, Place.enter, hparts.name_eq, Option.getD_some]

theorem map_paramOf {params : List SignatureParam} {nodes : List Node}
    (h : List.Forall₂ (fun p n => p.Shows module.text p.kind n) params nodes) (place : Place)
    (k : Nat) :
    (Form.numberList place.enter k nodes).map (paramOf module) = params := by
  induction h generalizing k with
  | nil => rfl
  | cons hp _ ih =>
    rw [Form.numberList, mapIdx_cons, map_cons, paramOf_of_shows hp rfl]
    simpa [Form.numberList, Nat.add_assoc, Nat.add_comm 1] using ih (k + 1)

/-- A function with a signature in canonical order, written before an empty block, is read back with
the same parameters and the same result, so its signature is the one it was written from. -/
theorem ofCallable_source {s : Signature} (h : s.Canonical) (file : Text) :
    ∃ module rootSpan span colon name params returns body,
      Module.ofSource ⟨s.source, file⟩ = .ok module ∧
      module.root = .mk rootSpan .load
        (.module [.mk span .load (.functionDef false colon [] name params returns body)]) ∧
      name.id? = some s.name ∧
      List.Forall₂ (fun p n => p.Shows module.text p.kind n) s.params params ∧
      Option.Rel (Node.IsWord module.text) s.returns returns ∧
      ∀ place : Place, place.node =
        .mk span .load (.functionDef false colon [] name params returns body) →
        ofCallable module place false = { s with isBound := false } := by
  obtain ⟨hlines, tokens, htokens, hsymbols⟩ := h.stackedTokens_source file
  have hcursor : (Cursor.ofTokens tokens).symbols =
      Symbol.defWord :: s.lineSymbols ++ [Symbol.newline, Symbol.finish] := by
    cases tokens with
    | nil => cases hsymbols
    | cons first rest => exact hsymbols
  -- What a span holds depends on the lines alone, so it is known before the module is.
  have htext {m : Module} (hm : m.lines = [s.source]) : m.text =
      Module.text ⟨file, default, [s.source]⟩ := by
    funext span
    simp only [Module.text, hm]
  have hall : (Cursor.ofTokens tokens).All
      (Token.Spelt (Module.text ⟨file, default, [s.source]⟩)) := by
    intro t ht hvisible
    obtain ⟨account, -⟩ := Source.account_of_stackedTokens htokens
    rw [hlines] at account
    refine Module.text_of_spells rfl (account.spells t (mem_filter.mpr ⟨?_, by simp [hvisible]⟩))
    cases tokens with
    | nil => cases hsymbols
    | cons first rest => exact ht
  obtain ⟨span, colon, name, params, returns, body, c', hrun, hc', hname, hshows, hreturns⟩ :=
    Grammar.functionDef_reads h (Grammar.statementWithin (Cursor.ofTokens tokens).ahead)
      hall hcursor
  have hdef : (Cursor.ofTokens tokens).current.kind = .kwDef := current_kind hcursor
  have hline : Grammar.statementLine (Cursor.ofTokens tokens) =
      .ok ([.mk span .load (.functionDef false colon [] name params returns body)], c') := by
    rw [Grammar.statementLine, Grammar.statementWithin, Grammar.statementRule, kind_bind, hdef]
    simp only
    rw [bind_of_ok hrun]
    rfl
  obtain ⟨module, rootSpan, hmodule, hkept, hroot⟩ :=
    Module.ofSource_of_line htokens hsymbols (by simp [hdef]) hline (current_kind hc')
  rw [← htext (hkept.trans hlines)] at hshows hreturns
  refine ⟨module, rootSpan, span, colon, name, params, returns, body, hmodule, hroot, hname, hshows,
    hreturns, ?_⟩
  intro place hplace
  have hparams : place.params.map (paramOf module) = s.params := by
    rw [Place.params, Place.form, hplace]
    exact map_paramOf hshows place 1
  have hdefined : place.definedName? = some s.name := by
    rw [Place.definedName?, hplace]
    exact hname
  rw [ofCallable, hparams, hdefined, Place.form, hplace]
  simp only [Node.form, Form.number, Form.numberOption, partText?_of_isWord hreturns]
  rfl

/-- Parameters of all kinds but one, with both markers, and defaults with and without a hint. -/
def sample : Signature where
  name := "f"
  params := [⟨"a", .positionalOnly, none, none⟩, ⟨"b", .positionalOrKeyword, some "t", some "1"⟩,
    ⟨"c", .keywordOnly, none, some "2"⟩, ⟨"d", .varKeyword, none, none⟩]
  returns := some "t"

theorem ofCallable_source_sample :
    sample.Canonical ∧ sample.source = "def f(a, /, b: t = 1, *, c=2, **d) -> t: pass" ∧
      ∃ module n, Module.ofSource ⟨sample.source, []⟩ = .ok module ∧
        ∀ place : Place, place.node = n → ofCallable module place false = sample := by
  have hletter {t : Text} (h : t.length = 1 ∧ t.all Byte.isLetter = true) : t.IsIdentifier := by
    obtain ⟨b, rfl⟩ := length_eq_one_iff.mp h.1
    refine ⟨⟨b, [], .inl (by simpa using h.2), by simp, fun entry hentry heq => ?_⟩, rfl⟩
    have hlong : ∀ entry ∈ Lexeme.keywords, (Text.ofString entry.1).length ≠ 1 := by decide +kernel
    exact hlong entry hentry (congrArg List.length heq)
  have hdigit {t : Text} (h : t.length = 1 ∧ t.all Byte.isDigit = true) : t.IsWord := by
    obtain ⟨b, rfl⟩ := length_eq_one_iff.mp h.1
    exact .inr ⟨⟨b, [], by simpa using h.2, by simp⟩, rfl⟩
  have hnames : ∀ p ∈ sample.params, p.name.length = 1 ∧ p.name.all Byte.isLetter = true := by
    decide +kernel
  have hhints : ∀ p ∈ sample.params, ∀ t ∈ p.hint, t.length = 1 ∧ t.all Byte.isLetter = true := by
    decide +kernel
  have hdefaults : ∀ p ∈ sample.params, ∀ t ∈ p.default, t.length = 1 ∧ t.all Byte.isDigit =
      true := by
    decide +kernel
  have hreturns : ∀ t ∈ sample.returns, t.length = 1 ∧ t.all Byte.isLetter = true := by
    decide +kernel
  have hcanonical : sample.Canonical :=
    ⟨hletter (by decide +kernel), fun p hp => hletter (hnames p hp),
      fun p hp t ht => .inl (hletter (hhints p hp t ht)), fun p hp t ht =>
    hdigit (hdefaults p hp t ht), fun t ht => .inl (hletter (hreturns t ht)), by decide⟩
  obtain ⟨module, -, span, colon, name, params, returns, body, hmodule, -, -, -, -, hsame⟩ :=
    ofCallable_source hcanonical []
  exact ⟨hcanonical, by decide +kernel, module, _, hmodule, hsame⟩

end Signature

end NameInference

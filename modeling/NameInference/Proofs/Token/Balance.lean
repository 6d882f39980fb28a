import Mathlib.Data.List.Induction
import Mathlib.Data.List.TakeWhile
import NameInference.Proofs.Token.Lossless

/-!
# Layout is balanced

A token is placed if it may come behind the tokens before it: a newline ends a line that has been
begun, indents and dedents come before one, no layout stands within brackets, and a dedent has an
indent to leave. The reader keeps track of what decides this, so every token is placed, and as many
indentations are left as were entered.
-/

namespace NameInference

open List TokenKind

variable {t : Token}

/-- Number of tokens of a kind. -/
def countKind (kind : TokenKind) (tokens : List Token) : Nat :=
  tokens.countP fun t => t.kind == kind

/-- Brackets that are open behind the tokens; a closer without an opener counts as nothing. -/
def openBrackets (tokens : List Token) : Nat :=
  tokens.foldl (fun depth t => if t.kind.opensBracket then depth + 1
    else if t.kind.closesBracket then depth - 1 else depth) 0

/-- No line has been begun behind the tokens. -/
def AtLineStart (tokens : List Token) : Prop := ∀ last ∈ tokens.getLast?, last.kind.isLayout = true

theorem countKind_append (kind : TokenKind) (tokens more : List Token) :
    countKind kind (tokens ++ more) = countKind kind tokens + countKind kind more := countP_append

theorem countKind_singleton (kind : TokenKind) (t : Token) :
    countKind kind [t] = if t.kind = kind then 1 else 0 := by
  simp [countKind, countP_singleton]

@[simp] theorem openBrackets_concat (tokens : List Token) (t : Token) :
    openBrackets (tokens ++ [t]) = if t.kind.opensBracket then openBrackets tokens + 1
      else if t.kind.closesBracket then openBrackets tokens - 1 else openBrackets tokens := by
  simp [openBrackets]

@[simp] theorem atLineStart_nil : AtLineStart [] := by simp [AtLineStart]

@[simp] theorem atLineStart_concat {tokens : List Token} :
    AtLineStart (tokens ++ [t]) ↔ t.kind.isLayout = true := by
  simp [AtLineStart]

/-- Tokens with one more behind them are split at that one or before it. -/
theorem split_concat {tokens before after : List Token} {last t : Token}
    (h : tokens ++ [last] = before ++ t :: after) :
    before = tokens ∧ t = last ∨ ∃ rest, tokens = before ++ t :: rest := by
  rcases eq_nil_or_concat after with rfl | ⟨rest, final, rfl⟩
  · obtain ⟨rfl, hlast⟩ := append_inj' h rfl
    exact Or.inl ⟨rfl, by simpa using hlast.symm⟩
  · have h : tokens ++ [last] = (before ++ t :: rest) ++ [final] := by simpa using h
    exact Or.inr ⟨rest, (append_inj' h rfl).1⟩

/-- Every token stands to those before it as `X` says. -/
def Each (X : List Token → Token → Prop) (tokens : List Token) : Prop :=
  ∀ before t after, tokens = before ++ t :: after → X before t

namespace Each

variable {X : List Token → Token → Prop} {tokens : List Token}

theorem nil : Each X [] := by
  intro before t after h
  simp at h

theorem concat (h : Each X tokens) (ht : X tokens t) : Each X (tokens ++ [t]) := by
  intro before u after hsplit
  rcases split_concat hsplit with ⟨rfl, rfl⟩ | ⟨rest, hrest⟩
  · exact ht
  · exact h before u rest hrest

end Each

/-- A token is layout, it is a string, or its bytes are what begins at some byte of a line. -/
inductive Token.Origin (token : Token) : Prop where
  | layout (h : token.kind.isLayout = true)
  | string (h : token.kind = .string ∨ token.kind = .bytes)
  | line (b : UInt8) (rest : Text) (more : Nat) (h : Lexeme.ofBytes b rest = .token token.kind more)
      (text_eq : token.text = b :: rest.take more)

/-- A token that may come behind the given ones. -/
structure Token.Placed (before : List Token) (t : Token) : Prop where
  origin : t.Origin
  not_end : t.kind ≠ .done
  closed : t.kind.isLayout = true → openBrackets before = 0
  newline : t.kind = .newline → ¬ AtLineStart before
  mark : t.kind = .indent ∨ t.kind = .dedent → AtLineStart before
  dedent : t.kind = .dedent → countKind .dedent before < countKind .indent before

/-- Every token may come behind those before it. -/
abbrev AllPlaced (tokens : List Token) : Prop := Each Token.Placed tokens

theorem TokenKind.ne_of_isLayout {kind other : TokenKind} (h : kind.isLayout = false)
    (hother : other.isLayout = true) :
    kind ≠ other := by
  rintro rfl
  rw [h] at hother
  cases hother

theorem Token.placed_of_visible (h : t.kind.isLayout = false) (horigin : t.Origin)
    (before : List Token) :
    t.Placed before where
  origin := horigin
  not_end := ne_of_isLayout h rfl
  closed hlayout := absurd rfl (ne_of_isLayout h hlayout)
  newline hkind := absurd hkind (ne_of_isLayout h rfl)
  mark := by
    rintro (hkind | hkind)
    · exact absurd hkind (ne_of_isLayout h rfl)
    · exact absurd hkind (ne_of_isLayout h rfl)
  dedent hkind := absurd hkind (ne_of_isLayout h rfl)

namespace AllPlaced

variable {tokens : List Token}

theorem endless (h : AllPlaced tokens) : Endless tokens := by
  intro t ht
  obtain ⟨before, after, hsplit⟩ := append_of_mem ht
  exact (h before t after hsplit).not_end

/-- No beginning of the tokens leaves more indentations than it enters. -/
theorem dedents_le (h : AllPlaced tokens) {before after : List Token}
    (hsplit : tokens = before ++ after) :
    countKind .dedent before ≤ countKind .indent before := by
  induction before using List.reverseRecOn generalizing after with
  | nil => simp [countKind]
  | append_singleton before t ih =>
    have hsplit : tokens = before ++ t :: after := by simpa using hsplit
    have hle := ih hsplit
    have hlt := (h before t after hsplit).dedent
    rw [countKind_append, countKind_append, countKind_singleton, countKind_singleton]
    split
    · next hkind =>
      have := hlt hkind
      omega
    · omega

end AllPlaced

namespace Layout

/-- The enclosing indentations, innermost first, become less and less down to zero. -/
structure Stacked (layout : Layout) : Prop where
  descending : layout.indents.Pairwise (· > ·)
  bottom : layout.indents.getLast? = some 0

/-- The layout says of the tokens before it what the place of the next one depends on. -/
structure Tracks (before : List Token) (layout : Layout) : Prop extends layout.Stacked where
  placed : AllPlaced before
  count : countKind .indent before + 1 = countKind .dedent before + layout.indents.length
  depth : openBrackets before = layout.depth
  lineOpen : layout.lineOpen = false ↔ AtLineStart before

/-- Where a logical line begins, no line is open. -/
theorem lineOpen_eq_false {lines : List Text} {n : Nat} {layout : Layout}
    (h : Meets lines layout (.before n)) (hfresh : layout.IsFresh) : layout.lineOpen = false := by
  by_contra hopen
  exact hfresh.not_joins (h (by simpa using hopen))

namespace Tracks

variable {before : List Token} {layout after : Layout}

/-- Before anything is read. -/
theorem empty : Tracks [] {} where
  descending := pairwise_singleton _ _
  bottom := rfl
  placed := .nil
  count := rfl
  depth := rfl
  lineOpen := by simp

/-- Whether a line goes on in the next one does not matter. -/
theorem congr (h : Tracks before layout) (hindents : after.indents = layout.indents)
    (hdepth : after.depth = layout.depth) (hopen : after.lineOpen = layout.lineOpen) :
    Tracks before after where
  descending := hindents ▸ h.descending
  bottom := hindents ▸ h.bottom
  placed := h.placed
  count := hindents ▸ h.count
  depth := hdepth ▸ h.depth
  lineOpen := hopen ▸ h.lineOpen

/-- A visible token begins a line or goes on with it. -/
theorem visible (h : Tracks before layout) (ht : t.kind.isLayout = false) (horigin : t.Origin) :
    Tracks (before ++ [t]) (layout.afterToken t.kind) where
  descending := h.descending
  bottom := h.bottom
  placed := h.placed.concat (Token.placed_of_visible ht horigin before)
  count := by
    have hindent : t.kind ≠ .indent := ne_of_isLayout ht rfl
    have hdedent : t.kind ≠ .dedent := ne_of_isLayout ht rfl
    simpa [countKind_append, countKind_singleton, hindent, hdedent, afterToken] using h.count
  depth := by rw [openBrackets_concat, h.depth]; rfl
  lineOpen := by simp [afterToken, ht]

/-- A newline ends a line outside of brackets. -/
theorem newline (h : Tracks before layout) (hdepth : layout.depth = 0)
    (hopen : layout.lineOpen = true) (ht : t.kind = .newline) :
    Tracks (before ++ [t]) { layout with lineOpen := false } where
  descending := h.descending
  bottom := h.bottom
  placed := by
    have hlayout : t.kind.isLayout = true := by rw [ht]; rfl
    refine h.placed.concat
      ⟨.layout hlayout, by simp [ht], fun _ => h.depth.trans hdepth, fun _ hstart =>
        ?_, by simp [ht], by simp [ht]⟩
    rw [h.lineOpen.mpr hstart] at hopen
    cases hopen
  count := by simpa [countKind_append, countKind_singleton, ht] using h.count
  depth := by simpa [ht, TokenKind.opensBracket, TokenKind.closesBracket] using h.depth
  lineOpen := by simp [ht, TokenKind.isLayout]

/-- An indent enters a larger indentation between two lines. -/
theorem indent (h : Tracks before layout) (hdepth : layout.depth = 0)
    (hopen : layout.lineOpen = false) {width : Nat} (hwidth : layout.indents.headD 0 < width)
    (ht : t.kind = .indent) :
    Tracks (before ++ [t]) { layout with indents := width :: layout.indents } where
  descending := by
    refine pairwise_cons.mpr ⟨fun other hother => ?_, h.descending⟩
    cases hindents : layout.indents with
    | nil => simp [hindents] at hother
    | cons top rest =>
      have hdescending := h.descending
      rw [hindents] at hwidth hother hdescending
      rcases mem_cons.mp hother with rfl | hrest
      · exact hwidth
      · exact (rel_of_pairwise_cons hdescending hrest).trans hwidth
  bottom := by simp [getLast?_cons, h.bottom]
  placed := by
    have hlayout : t.kind.isLayout = true := by rw [ht]; rfl
    exact h.placed.concat ⟨.layout hlayout, by simp [ht], fun _ => h.depth.trans hdepth,
      by simp [ht], fun _ => h.lineOpen.mp hopen, by simp [ht]⟩
  count := by
    have := h.count
    simp only [countKind_append, countKind_singleton, ht, if_pos, length_cons, reduceCtorEq,
      if_false]
    omega
  depth := by simpa [ht, TokenKind.opensBracket, TokenKind.closesBracket] using h.depth
  lineOpen := by simp [ht, TokenKind.isLayout, hopen]

/-- A dedent leaves the innermost indentation, which is not the last one. -/
theorem dedent (h : Tracks before layout) (hdepth : layout.depth = 0)
    (hopen : layout.lineOpen = false) {top : Nat} {outer : List Nat}
    (hindents : layout.indents = top :: outer) (houter : outer ≠ []) (ht : t.kind = .dedent) :
    Tracks (before ++ [t]) { layout with indents := outer } where
  descending := by
    have hdescending := h.descending
    rw [hindents] at hdescending
    exact hdescending.of_cons
  bottom := by
    have hbottom := h.bottom
    rwa [hindents, getLast?_cons_of_ne_nil houter] at hbottom
  placed := by
    have hcount := h.count
    have hlength := length_pos_iff.mpr houter
    rw [hindents, length_cons] at hcount
    have hlayout : t.kind.isLayout = true := by rw [ht]; rfl
    exact h.placed.concat ⟨.layout hlayout, by simp [ht], fun _ => h.depth.trans hdepth,
      by simp [ht], fun _ => h.lineOpen.mp hopen, fun _ => by omega⟩
  count := by
    have hcount := h.count
    rw [hindents, length_cons] at hcount
    simp only [countKind_append, countKind_singleton, ht, if_pos, reduceCtorEq, if_false]
    omega
  depth := by simpa [ht, TokenKind.opensBracket, TokenKind.closesBracket] using h.depth
  lineOpen := by simp [ht, TokenKind.isLayout, hopen]

/-- Dedents leave one indentation after the other. -/
theorem dedents (h : Tracks before layout) (hdepth : layout.depth = 0)
    (hopen : layout.lineOpen = false) {left outer : List Nat}
    (hindents : layout.indents = left ++ outer) (houter : outer ≠ []) (file : Text) (p : Position) :
    Tracks (before ++ Layout.dedents file p left) { layout with indents := outer } := by
  induction left generalizing before layout with
  | nil =>
    rw [Layout.dedents, map_nil, append_nil]
    exact h.congr hindents.symm rfl rfl
  | cons top left ih =>
    have hfirst := h.dedent hdepth hopen hindents (by simp [houter])
      (t := Layout.mark file p .dedent "<DEDENT>") rfl
    simpa using ih hfirst hdepth hopen rfl

end Tracks

/-- The reader keeps track on every way, also behind the tokens of other sources. -/
theorem Reached.tracks {file : Text} {lines : List Text} {earlier tokens : List Token} {spot : Spot}
    {layout : Layout} (h : Reached file lines tokens spot layout) (hearlier : Tracks earlier {}) :
    Tracks (earlier ++ tokens) layout := by
  induction h with
  | start => simpa using hearlier
  | void h hline hfresh hvoid ih => exact ih
  | indent h hline hfresh hvoid hwidth ih =>
    rw [← append_assoc]
    exact ih.indent hfresh.depth (lineOpen_eq_false h.meets hfresh) hwidth rfl
  | @dedent _ _ layout row h hline hfresh hvoid ih =>
    -- The outermost indentation is zero, so it is never left.
    have houter : layout.indents.dropWhile (decide <| indentWidth row.leading < ·) ≠ [] := by
      intro hnil
      have hzero := dropWhile_eq_nil_iff.mp hnil 0 (mem_of_getLast? ih.bottom)
      simp at hzero
    rw [← append_assoc]
    exact ih.dedents hfresh.depth (lineOpen_eq_false h.meets hfresh) takeWhile_append_dropWhile.symm
      houter file _
  | join h hline hpending ih => exact ih.congr rfl rfl rfl
  | string h hline hpending ih => exact ih.congr rfl rfl rfl
  | close h hline hpending hclose ih =>
    obtain ⟨-, hkind⟩ := h.sited.string _ hpending
    rw [← append_assoc]
    refine (ih.visible ?_ (.string hkind)).congr rfl ?_ rfl
    · rcases hkind with hkind | hkind <;> simp [hkind, TokenKind.isLayout]
    · rcases hkind with hkind | hkind <;> simp [afterToken, hkind, TokenKind.opensBracket,
        TokenKind.closesBracket]
  | blank h hrest hb ih => exact ih
  | token h hrest hb ih =>
    rw [← append_assoc]
    exact ih.visible (length_of_token hrest hb).2 (.line _ _ _ hb rfl)
  | stop h hrest ih => exact ih
  | backslash h hrest ih => exact ih.congr rfl rfl rfl
  | quote h hrest hb ih => exact ih.congr rfl rfl rfl
  | newline h hfresh hopen ih =>
    rw [← append_assoc]
    exact ih.newline hfresh.depth hopen rfl
  | goOn h hjoins ih => exact ih

end Layout

/-- Layout tokens stand between logical lines, and as many indentations are left as are entered. -/
structure BalancedLayout (tokens : List Token) : Prop where
  dedents_le : ∀ before after, tokens = before ++ after → countKind .dedent before ≤
    countKind .indent before
  dedents_eq : countKind .dedent tokens = countKind .indent tokens
  end_last : ∃ read last, tokens = read ++ [last] ∧ last.kind = .done ∧ Endless read
  outside_brackets : ∀ before t after, tokens = before ++ t :: after →
    t.kind = .newline ∨ t.kind = .indent ∨ t.kind = .dedent → openBrackets before = 0
  between_lines : ∀ before t after, tokens = before ++ t :: after → t.kind = .indent ∨
    t.kind = .dedent →
    ∀ last ∈ before.getLast?, last.kind = .newline ∨ last.kind = .indent ∨ last.kind = .dedent
  line_ended : ∀ before run after, tokens = before ++ run ++ after → run ≠ [] →
    (∀ t ∈ run, t.kind.isLayout = false) → (∀ t ∈ before.getLast?, t.kind.isLayout = true) →
    (∀ t ∈ after.head?, t.kind.isLayout = true) → ∃ newline rest, after = newline :: rest ∧
    newline.kind = .newline

/-- A token that is layout and not the end. -/
theorem kind_of_isLayout (hlayout : t.kind.isLayout = true) (hend : t.kind ≠ .done) :
    t.kind = .newline ∨ t.kind = .indent ∨ t.kind = .dedent := by
  unfold TokenKind.isLayout at hlayout
  split at hlayout <;> simp_all

/-- Placed tokens with the end behind them, once every line is ended and every indentation left. -/
theorem AllPlaced.balancedLayout {read : List Token} {last : Token} (h : AllPlaced read)
    (hstart : AtLineStart read) (hcount : countKind .dedent read = countKind .indent read)
    (hlast : last.kind = .done) :
    BalancedLayout (read ++ [last]) where
  dedents_le before after hsplit := by
    rcases eq_nil_or_concat after with rfl | ⟨after, final, rfl⟩
    · rw [← append_nil before, ← hsplit, countKind_append, countKind_append, countKind_singleton,
        countKind_singleton, hcount]
      simp [hlast]
    · have hsplit : read ++ [last] = (before ++ after) ++ [final] := by simpa using hsplit
      exact h.dedents_le (append_inj' hsplit rfl).1
  dedents_eq := by simp [countKind_append, countKind_singleton, hcount, hlast]
  end_last := ⟨read, last, rfl, hlast, h.endless⟩
  outside_brackets before t after hsplit ht := by
    rcases split_concat hsplit with ⟨rfl, rfl⟩ | ⟨rest, hrest⟩
    · simp [hlast] at ht
    · refine (h before t rest hrest).closed ?_
      rcases ht with ht | ht | ht <;> simp [ht, TokenKind.isLayout]
  between_lines before t after hsplit ht final hfinal := by
    rcases split_concat hsplit with ⟨rfl, rfl⟩ | ⟨rest, hrest⟩
    · simp [hlast] at ht
    · refine kind_of_isLayout ((h before t rest hrest).mark ht final hfinal) (h.endless final ?_)
      rw [hrest]
      exact mem_append_left _ (mem_of_getLast? hfinal)
  line_ended before run after hsplit hrun hvisible hbefore hafter := by
    -- A line that has been begun is not followed by the end, an indent or a dedent.
    have hbegun : ¬ AtLineStart (before ++ run) := by
      obtain ⟨init, v, rfl⟩ := (eq_nil_or_concat run).resolve_left hrun
      simp only [concat_eq_append, ← append_assoc, atLineStart_concat, Bool.not_eq_true]
      exact hvisible v (by simp)
    cases after with
    | nil =>
      rw [append_nil] at hsplit
      rw [← hsplit, atLineStart_concat, hlast] at hbegun
      exact absurd rfl hbegun
    | cons t rest =>
      rcases split_concat hsplit with ⟨hread, -⟩ | ⟨rest', hread⟩
      · exact absurd (hread ▸ hstart) hbegun
      · have hplaced := h _ t rest' hread
        refine ⟨t, rest, rfl, ?_⟩
        rcases kind_of_isLayout (hafter t rfl) hplaced.not_end with ht | ht | ht
        · exact ht
        · exact absurd (hplaced.mark (Or.inl ht)) hbegun
        · exact absurd (hplaced.mark (Or.inr ht)) hbegun

namespace Source

variable {before tokens : List Token}

/-- At the end of a source all indentations are left, and the next source begins anew. -/
theorem readTokens_tracks {source : Source} (htracks : Layout.Tracks before {})
    (h : source.readTokens = .ok tokens) :
    Layout.Tracks (before ++ tokens) {} := by
  obtain ⟨read, layout, hcloses⟩ := exists_closes h
  have hread := hcloses.reached.tracks htracks
  have hopen := Layout.lineOpen_eq_false hcloses.reached.meets hcloses.fresh
  obtain ⟨left, hleft⟩ := getLast?_eq_some_iff.mp hread.bottom
  have hsame (p : Position) :
      Layout.dedents source.file p (layout.indents.drop 1) = Layout.dedents source.file p left := by
    rw [Layout.dedents, Layout.dedents, map_const', map_const', length_drop, hleft, length_append,
      length_singleton, Nat.add_sub_cancel]
  rw [hcloses.tokens_eq, hsame, ← append_assoc]
  exact (hread.dedents hcloses.fresh.depth hopen hleft (by simp) source.file _).congr rfl
    hcloses.fresh.depth.symm hopen.symm

/-- Source after source, up to the end behind the last. -/
theorem readAllTokens_tracks {sources : List Source} (htracks : Layout.Tracks before {})
    (h : readAllTokens sources = .ok tokens) :
    ∃ read last, tokens = read ++ [last] ∧ last.kind = .done ∧
      Layout.Tracks (before ++ read) {} := by
  fun_induction readAllTokens sources generalizing before tokens with
  | case1 =>
    cases h
    exact ⟨[], _, rfl, rfl, by simpa using htracks⟩
  | case2 source =>
    obtain ⟨read, hread, hresult⟩ := exists_of_bind_eq_ok h
    cases hresult
    exact ⟨read, _, rfl, rfl, readTokens_tracks htracks hread⟩
  | case3 source rest hrest ih =>
    obtain ⟨first, hfirst, h⟩ := exists_of_bind_eq_ok h
    obtain ⟨more, hmore, hresult⟩ := exists_of_bind_eq_ok h
    cases hresult
    obtain ⟨read, last, rfl, hlast, hread⟩ := ih (readTokens_tracks htracks hfirst) hmore
    exact ⟨first ++ read, last, by simp, hlast, by simpa using hread⟩

theorem exists_readTokens_of_readAllTokens {sources : List Source}
    (h : readAllTokens sources = .ok tokens) :
    ∀ source ∈ sources, ∃ read, source.readTokens = .ok read := by
  fun_induction readAllTokens sources generalizing tokens with
  | case1 => simp
  | case2 source =>
    obtain ⟨read, hread, -⟩ := exists_of_bind_eq_ok h
    simpa using ⟨read, hread⟩
  | case3 source rest hrest ih =>
    obtain ⟨first, hfirst, h⟩ := exists_of_bind_eq_ok h
    obtain ⟨more, hmore, -⟩ := exists_of_bind_eq_ok h
    exact forall_mem_cons.mpr ⟨⟨first, hfirst⟩, ih hmore⟩

/-- Lines in two parts are read one part after the other. -/
theorem exists_of_readLines_append {file : Text} {layout after : Layout}
    {first rest : List (Nat × Text)}
    (h : Layout.readLines file (first ++ rest) layout = .ok (tokens, after)) :
    ∃ read middle, Layout.readLines file first layout = .ok (read, middle) := by
  induction first generalizing layout tokens with
  | nil => exact ⟨[], layout, rfl⟩
  | cons numbered first ih =>
    obtain ⟨⟨line, middle⟩, hline, h⟩ := exists_of_bind_eq_ok h
    obtain ⟨⟨more, last⟩, hmore, hresult⟩ := exists_of_bind_eq_ok h
    cases hresult
    obtain ⟨read, middle', hread⟩ := ih hmore
    refine ⟨line ++ read, middle', ?_⟩
    simp only [Layout.readLines, hline, hread, bind, Except.bind, pure, Except.pure]

/-- Behind any number of lines of an accepted source the indentations are stacked. -/
theorem stacked_of_readTokens {source : Source} (h : source.readTokens = .ok tokens)
    {first rest : List (Nat × Text)} (hlines : Lines.numbered source.lines = first ++ rest) :
    ∃ read layout, Layout.readLines source.file first {} = .ok (read, layout) ∧ layout.Stacked := by
  obtain ⟨⟨all, layout⟩, hall, -⟩ := exists_of_bind_eq_ok h
  rw [hlines] at hall
  obtain ⟨read, middle, hread⟩ := exists_of_readLines_append hall
  have hstart : Layout.Reached source.file source.lines [] (.before 1) {} := .start
  have hfirst (i : Nat) (line : Nat × Text) (hi : first[i]? = some line) :
      line.1 = 1 + i ∧ line ∈ Lines.numbered source.lines := by
    apply Lines.numbered_getElem?
    rw [hlines, List.getElem?_append_left (List.getElem?_eq_some_iff.mp hi).1, hi]
  have hreached := hstart.readLines hfirst
  rw [hread] at hreached
  exact ⟨read, middle, hread, (hreached.tracks Layout.Tracks.empty).toStacked⟩

/-- The layout of accepted sources is balanced, and behind every line their indentations are
stacked. -/
theorem stackedTokens_balanced {sources : List Source} (h : stackedTokens sources = .ok tokens) :
    BalancedLayout tokens ∧
    ∀ source ∈ sources, ∀ first rest, Lines.numbered source.lines = first ++ rest →
      ∃ read layout, Layout.readLines source.file first {} = .ok (read, layout) ∧
        layout.Stacked := by
  refine ⟨?_, fun source hsource first rest hlines => ?_⟩
  · obtain ⟨read, last, rfl, hlast, htracks⟩ := readAllTokens_tracks Layout.Tracks.empty h
    exact htracks.placed.balancedLayout (htracks.lineOpen.mp rfl)
      (by simpa using htracks.count.symm) hlast
  · obtain ⟨read, hread⟩ := exists_readTokens_of_readAllTokens h source (mem_reverse.mpr hsource)
    exact stacked_of_readTokens hread hlines

/-- A block with a nested one, a bracket over two lines, a string over two lines and a lone
backslash. -/
def layoutSample : Source := ⟨"if f(1,\n  2):\n  if x:\n    \"\"\"a\nb\"\"\"\n\\\n\ny\n", []⟩

theorem stackedTokens_balanced_layoutSample :
    ∃ tokens, stackedTokens [layoutSample, sample] = .ok tokens ∧ countKind .indent tokens = 2 ∧
      countKind .dedent tokens = 2 ∧ BalancedLayout tokens := by
  have hcount : (stackedTokens [layoutSample, sample]).map
      (fun tokens => (countKind .indent tokens, countKind .dedent tokens)) = .ok (2, 2) := by
        decide +kernel
  obtain ⟨tokens, h, hkinds⟩ := exists_of_map_eq_ok hcount
  obtain ⟨hindent, hdedent⟩ := Prod.mk.inj hkinds
  exact ⟨tokens, h, hindent, hdedent, (stackedTokens_balanced h).1⟩

end Source

end NameInference

import NameInference.Token.Layout
import NameInference.Proofs.Except
import NameInference.Proofs.Text.Between
import NameInference.Proofs.Token.Extent

/-!
# The way of a reader

The reader of logical lines gives tokens and carries a layout from spot to spot. Each step takes
what stands next, and what is said about tokens is proved along the steps; the functions that take
them are gone through here only.

* `Layout.Reached.readLines`: reading lines ends where the steps lead, or at a rejection in the
  lines.
* `Layout.Reached.sited`: every token begins at a position of the lines, and so does a string that
  is left open.
-/

namespace NameInference

open List

/-- Nothing stands on the line but blanks and a comment. -/
def Text.isVoid (line : Text) : Bool :=
  match line.dropWhile Lexeme.isBlank with
  | [] => true
  | b :: _ => b == 0x23

/-- The blanks in front of a line. -/
abbrev Text.leading (line : Text) : Text := line.takeWhile Lexeme.isBlank

/-- What stands on a line is what stands behind its blanks. -/
theorem Text.drop_leading (line : Text) :
    line.drop line.leading.length = line.dropWhile Lexeme.isBlank := by
  conv_lhs => enter [2]; rw [← takeWhile_append_dropWhile (p := Lexeme.isBlank) (l := line)]
  exact drop_left

/-- Before a line, in a line of which some bytes have been read, or behind a line that may have to
be ended. -/
inductive Spot where
  | before (n : Nat)
  | within (n : Nat) (row : Text) (c : Nat)
  | behind (n : Nat) (row : Text)

namespace Layout

/-- A logical line begins. -/
structure IsFresh (layout : Layout) : Prop where
  pending : layout.pending = none
  depth : layout.depth = 0
  continued : layout.continued = false

/-- Something joins the next line. -/
def Joins (layout : Layout) : Prop :=
  layout.pending.isSome = true ∨ layout.depth ≠ 0 ∨ layout.continued = true

theorem IsFresh.not_joins {layout : Layout} (h : layout.IsFresh) : ¬ layout.Joins := by
  simp [Joins, h.pending, h.depth, h.continued]

/-- Leaves one indentation after the other. -/
abbrev dedents (file : Text) (p : Position) (left : List Nat) : List Token :=
  left.map fun _ => mark file p .dedent "<DEDENT>"

section

variable (file : Text) (lines : List Text)

/-- The reader has given the tokens and has come to the spot with the layout. -/
inductive Reached : List Token → Spot → Layout → Prop where
  | start : Reached [] (.before 1) {}
  | void (h : Reached tokens (.before n) layout) (hline : (n, row) ∈ Lines.numbered lines)
    (hfresh : layout.IsFresh)
      (hvoid : row.isVoid = true) : Reached tokens (.before (n + 1)) layout
  | indent (h : Reached tokens (.before n) layout) (hline : (n, row) ∈ Lines.numbered lines)
    (hfresh : layout.IsFresh)
      (hvoid : row.isVoid = false) (hwidth : layout.indents.headD 0 < indentWidth row.leading) :
      Reached (tokens ++ [mark file ⟨n, row.leading.length + 1⟩ .indent "<INDENT>"])
        (.within n row row.leading.length)
          { layout with indents := indentWidth row.leading :: layout.indents }
  | dedent (h : Reached tokens (.before n) layout) (hline : (n, row) ∈ Lines.numbered lines)
      (hfresh : layout.IsFresh) (hvoid : row.isVoid = false) :
      Reached
        (tokens ++ dedents file ⟨n, row.leading.length + 1⟩
          (layout.indents.takeWhile (decide <| indentWidth row.leading < ·)))
        (.within n row row.leading.length)
        { layout with indents := layout.indents.dropWhile (decide <| indentWidth row.leading < ·) }
  | join (h : Reached tokens (.before n) layout) (hline : (n, row) ∈ Lines.numbered lines)
      (hpending : layout.pending = none) : Reached tokens (.within n row 0)
        { layout with continued := false }
  | string (h : Reached tokens (.before n) layout) (hline : (n, row) ∈ Lines.numbered lines)
      (hpending : layout.pending = some string) : Reached tokens (.before (n + 1))
        { layout with pending := some { string with text := string.text ++ row ++ [0x0A] } }
  | close (h : Reached tokens (.before n) layout) (hline : (n, row) ∈ Lines.numbered lines)
      (hpending : layout.pending = some string)
      (hclose : Lexeme.tripleClose? string.quote row = some inside) : Reached
        (tokens ++
          [⟨string.kind, string.text ++ row.take (inside + 3), file, string.start,
            ⟨n, inside + 4⟩⟩])
        (.within n row (inside + 3))
        { layout with pending := none, lineOpen := true, continued := false }
  | blank (h : Reached tokens (.within n row c) layout) (hrest : row.drop c = b :: rest)
      (hb : Lexeme.ofBytes b rest = .blank) : Reached tokens (.within n row (c + 1)) layout
  | token (h : Reached tokens (.within n row c) layout) (hrest : row.drop c = b :: rest)
      (hb : Lexeme.ofBytes b rest = .token kind more) :
      Reached (tokens ++ [⟨kind, b :: rest.take more, file, ⟨n, c + 1⟩, ⟨n, c + 1 + more + 1⟩⟩])
        (.within n row (c + 1 + more)) (layout.afterToken kind)
  | stop (h : Reached tokens (.within n row c) layout)
      (hrest : row.drop c = [] ∨ ∃ rest, row.drop c = 0x23 :: rest) :
        Reached tokens (.behind n row) layout
  | backslash (h : Reached tokens (.within n row c) layout) (hrest : row.drop c = [0x5C]) :
      Reached tokens (.behind n row) { layout with continued := true }
  | quote (h : Reached tokens (.within n row c) layout) (hrest : row.drop c = b :: rest)
      (hb : Lexeme.ofBytes b rest = .openString kind quote) : Reached tokens (.behind n row)
        { layout with pending := some ⟨kind, quote, ⟨n, c + 1⟩, b :: rest ++ [0x0A]⟩ }
  | newline (h : Reached tokens (.behind n row) layout) (hfresh : layout.IsFresh)
    (hopen : layout.lineOpen = true) :
      Reached (tokens ++ [mark file ⟨n, row.length + 1⟩ .newline "\n"]) (.before (n + 1))
        { layout with lineOpen := false }
  | goOn (h : Reached tokens (.behind n row) layout) (hjoins : layout.lineOpen = true →
      layout.Joins) : Reached tokens (.before (n + 1)) layout

end

/-- The spot lies in the lines. In a line no string is open, and between lines a logical line is
open only if something joins the next one. -/
def Meets (lines : List Text) (layout : Layout) : Spot → Prop
  | .before _ => layout.lineOpen = true → layout.Joins
  | .within n row c => (n, row) ∈ Lines.numbered lines ∧ c ≤ row.length ∧ layout.pending = none
  | .behind n row => (n, row) ∈ Lines.numbered lines

/-- Every token begins at a position of the lines and is not the end. A string that is left open
begins there too. -/
structure Sited (file : Text) (lines : List Text) (tokens : List Token) (layout : Layout) :
    Prop where
  token : ∀ t ∈ tokens, t.file = file ∧ Lines.HasPosition lines t.start ∧ t.kind ≠ .done
  string : ∀ s ∈ layout.pending, Lines.HasPosition lines s.start ∧
    (s.kind = .string ∨ s.kind = .bytes)

variable {file : Text} {lines : List Text} {tokens : List Token} {spot : Spot} {layout : Layout}
  {n c : Nat} {row : Text}

theorem hasPosition_on (hline : (n, row) ∈ Lines.numbered lines) (hc : c ≤ row.length) :
    Lines.HasPosition lines ⟨n, c + 1⟩ :=
  ⟨row, hline, Nat.le_add_left 1 c, Nat.add_le_add_right hc 1⟩

theorem length_leading_le (row : Text) : row.leading.length ≤ row.length :=
  (List.takeWhile_prefix _).length_le

theorem length_of_drop {b : UInt8} {rest : Text} (h : row.drop c = b :: rest) :
    c + 1 + rest.length = row.length := by
  have hlength := congrArg List.length h
  simp only [length_drop, length_cons] at hlength
  omega

theorem length_of_token {b : UInt8} {rest : Text} {kind : TokenKind} {more : Nat}
    (h : row.drop c = b :: rest) (hb : Lexeme.ofBytes b rest = .token kind more) :
    c + 1 + more ≤ row.length ∧ kind.isLayout = false := by
  have hlength := length_of_drop h
  have hfits := Lexeme.ofBytes_describes b rest
  rw [hb] at hfits
  obtain ⟨hroom, hkind⟩ : more ≤ rest.length ∧ kind.isLayout = false := hfits
  exact ⟨by omega, hkind⟩

theorem Reached.meets (h : Reached file lines tokens spot layout) : Meets lines layout spot := by
  induction h with
  | start => simp [Meets]
  | void h hline hfresh hvoid ih => exact ih
  | @indent _ _ _ row h hline hfresh | @dedent _ _ _ row h hline hfresh =>
    exact ⟨hline, length_leading_le row, hfresh.pending⟩
  | join h hline hpending => exact ⟨hline, Nat.zero_le _, hpending⟩
  | string => exact fun _ => Or.inl rfl
  | close h hline hpending hclose => exact ⟨hline, Lexeme.tripleClose?_le hclose, rfl⟩
  | blank h hrest hb ih =>
    have hlength := length_of_drop hrest
    exact ⟨ih.1, by omega, ih.2.2⟩
  | token h hrest hb ih => exact ⟨ih.1, (length_of_token hrest hb).1, ih.2.2⟩
  | stop h hrest ih | backslash h hrest ih | quote h hrest hb ih => exact ih.1
  | newline => simp [Meets]
  | goOn h hjoins => exact hjoins

theorem Sited.append (h : Sited file lines tokens layout) {more : List Token} {after : Layout}
    (hmore : ∀ t ∈ more, t.file = file ∧ Lines.HasPosition lines t.start ∧ t.kind ≠ .done)
    (hafter : ∀ s ∈ after.pending, s ∈ layout.pending) : Sited file lines (tokens ++ more) after :=
  ⟨fun t ht => (mem_append.mp ht).elim (h.token t) (hmore t), fun s hs => h.string s (hafter s hs)⟩

/-- Tokens without width at a position. -/
theorem sited_dedents {p : Position} (hp : Lines.HasPosition lines p) (left : List Nat) :
    ∀ t ∈ dedents file p left, t.file = file ∧ Lines.HasPosition lines t.start ∧ t.kind ≠ .done :=
  forall_mem_map.mpr fun _ _ => ⟨rfl, hp, nofun⟩

theorem Reached.sited (h : Reached file lines tokens spot layout) :
    Sited file lines tokens layout := by
  induction h with
  | start => exact ⟨by simp, by simp⟩
  | void h hline hfresh hvoid ih => exact ih
  | @indent _ _ _ row h hline _ _ _ ih =>
    exact ih.append
      (forall_mem_singleton.mpr ⟨rfl, hasPosition_on hline (length_leading_le row), nofun⟩)
      fun _ hs => hs
  | @dedent _ _ _ row h hline _ _ ih =>
    exact ih.append (sited_dedents (hasPosition_on hline (length_leading_le row)) _) fun _ hs => hs
  | join h hline hpending ih => exact ⟨ih.token, ih.string⟩
  | string h hline hpending ih => exact ⟨ih.token, by simpa using ih.string _ hpending⟩
  | close h hline hpending hclose ih =>
    obtain ⟨hstart, hkind⟩ := ih.string _ hpending
    refine ih.append (forall_mem_singleton.mpr ⟨rfl, hstart, ?_⟩) nofun
    rcases hkind with hkind | hkind <;> simp [hkind]
  | blank h hrest hb ih => exact ih
  | token h hrest hb ih =>
    obtain ⟨hline, hc, -⟩ := h.meets
    have hvisible := (length_of_token hrest hb).2
    refine ih.append (forall_mem_singleton.mpr ⟨rfl, hasPosition_on hline hc, ?_⟩) fun _ hs => hs
    rintro rfl
    cases hvisible
  | stop h hrest ih => exact ih
  | backslash h hrest ih => exact ⟨ih.token, ih.string⟩
  | @quote _ _ _ _ _ b rest kind quote h hrest hb ih =>
    obtain ⟨hline, hc, -⟩ := h.meets
    have hkind := Lexeme.ofBytes_describes b rest
    rw [hb] at hkind
    exact ⟨ih.token, by simpa using ⟨hasPosition_on hline hc, hkind⟩⟩
  | @newline _ _ row _ h _ _ ih =>
    have hline : (_, row) ∈ Lines.numbered lines := h.meets
    exact ih.append (forall_mem_singleton.mpr ⟨rfl, hasPosition_on hline le_rfl, nofun⟩)
      fun _ hs => hs
  | goOn h hjoins ih => exact ih

/-- A result is as `P` says, and a rejection is at a position of the lines. -/
def Outcome {α : Type} (file : Text) (lines : List Text) (P : α → Prop) :
    Except SyntaxError α → Prop
  | .ok a => P a
  | .error e => e.file = file ∧ Lines.HasPosition lines e.position

theorem Outcome.pure {α : Type} {P : α → Prop} {a : α} (h : P a) : Outcome file lines P (pure a) :=
  h

theorem Outcome.bind {α β : Type} {P : α → Prop} {Q : β → Prop} {x : Except SyntaxError α}
    {f : α → Except SyntaxError β} (h : Outcome file lines P x)
    (hf : ∀ a, P a → Outcome file lines Q (f a)) :
    Outcome file lines Q (x >>= f) := by
  cases x with
  | error e => exact h
  | ok a => exact hf a h

namespace Reached

theorem readFrom {col : Nat} {rest : Text} (h : Reached file lines tokens (.within n row c) layout)
    (hcol : col = c + 1) (hrest : row.drop c = rest) :
    Outcome file lines (fun read => Reached file lines (tokens ++ read.1) (.behind n row) read.2)
      (readFrom file n col rest layout) := by
  fun_induction Layout.readFrom file n col rest layout generalizing c tokens with
  | case1 col layout => simpa [Outcome] using h.stop (Or.inl hrest)
  | case2 col layout b rest hlexeme ih =>
    have hnext : row.drop (c + 1) = rest := by rw [← tail_drop, hrest]; rfl
    exact ih (h.blank hrest hlexeme) (by rw [hcol]) hnext
  | case3 col layout b rest hlexeme =>
    have hsign := Lexeme.ofBytes_describes b rest
    rw [hlexeme] at hsign
    obtain rfl : b = 0x23 := hsign
    simpa [Outcome] using h.stop (Or.inr ⟨rest, hrest⟩)
  | case4 col layout b rest hlexeme =>
    have hslash := Lexeme.ofBytes_describes b rest
    rw [hlexeme] at hslash
    obtain ⟨rfl, rfl⟩ : b = 0x5C ∧ rest = [] := hslash
    simpa [Outcome] using h.backslash hrest
  | case5 col layout b rest kind quote hlexeme =>
    subst hcol
    simpa [Outcome] using h.quote hrest hlexeme
  | case6 col layout b rest fault hlexeme =>
    subst hcol
    obtain ⟨hline, hc, -⟩ := h.meets
    exact ⟨rfl, hasPosition_on hline hc⟩
  | case7 col layout b rest kind more hlexeme e hmore ih =>
    subst hcol
    have hnext : row.drop (c + 1 + more) = rest.drop more := by
      rw [← drop_drop, ← tail_drop, hrest, tail_cons]
    have hread := ih (h.token hrest hlexeme) rfl hnext
    rwa [hmore] at hread
  | case8 col layout b rest kind more hlexeme tail last hmore ih =>
    subst hcol
    have hnext : row.drop (c + 1 + more) = rest.drop more := by
      rw [← drop_drop, ← tail_drop, hrest, tail_cons]
    have hread := ih (h.token hrest hlexeme) rfl hnext
    rw [hmore] at hread
    simpa [Outcome] using hread

theorem readToEnd {before : Layout} (h : Reached file lines tokens (.within n row c) layout)
    (hlayout : { before with continued := false } = layout) :
    Outcome file lines (fun read => Reached file lines (tokens ++ read.1) (.before (n + 1)) read.2)
      (readToEnd file n row c before) := by
  subst hlayout
  refine (h.readFrom rfl rfl).bind fun read hread => ?_
  change Reached file lines (tokens ++ (endLine file n row.length read.1 read.2).1) _
    (endLine file n row.length read.1 read.2).2
  unfold endLine
  split
  · next hends =>
    simp only [Bool.and_eq_true, beq_iff_eq, Bool.not_eq_true', Option.isNone_iff_eq_none] at hends
    obtain ⟨⟨⟨hpending, hdepth⟩, hcontinued⟩, hopen⟩ := hends
    rw [← append_assoc]
    exact hread.newline ⟨hpending, hdepth, hcontinued⟩ hopen
  · next hjoins =>
    refine hread.goOn fun hopen => ?_
    by_contra hrest
    simp_all [Joins]

/-- The width of a line makes one indent or any number of dedents. -/
theorem reindent (h : Reached file lines tokens (.before n) layout)
    (hline : (n, row) ∈ Lines.numbered lines) (hfresh : layout.IsFresh)
    (hvoid : row.isVoid = false) :
    Outcome file lines
      (fun read =>
        Reached file lines (tokens ++ read.1) (.within n row row.leading.length) read.2 ∧
        read.2.continued = false)
      (reindent file ⟨n, row.leading.length + 1⟩ (indentWidth row.leading) layout) := by
  unfold Layout.reindent
  split
  · next hwidth => exact ⟨h.indent hline hfresh hvoid hwidth, hfresh.continued⟩
  · dsimp only
    split
    · exact ⟨h.dedent hline hfresh hvoid, hfresh.continued⟩
    · exact ⟨rfl, hasPosition_on hline (length_leading_le row)⟩

theorem readLine (h : Reached file lines tokens (.before n) layout)
    (hline : (n, row) ∈ Lines.numbered lines) :
    Outcome file lines (fun read => Reached file lines (tokens ++ read.1) (.before (n + 1)) read.2)
      (readLine file n row layout) := by
  fun_cases Layout.readLine file n row layout with
  | case1 string hpending hclose => exact .pure (by simpa using h.string hline hpending)
  | case2 string hpending inside hclose token =>
    refine ((h.close hline hpending hclose).readToEnd rfl).bind fun read hread => .pure ?_
    simpa using hread
  | case3 hpending hfirst leading hrest =>
    simp only [Bool.and_eq_true, beq_iff_eq, Bool.not_eq_true'] at hfirst
    have hvoid : row.isVoid = true := by rw [Text.isVoid, ← row.drop_leading, hrest]
    exact .pure (by simpa using h.void hline ⟨hpending, hfirst.1, hfirst.2⟩ hvoid)
  | case4 hpending hfirst leading tail hrest =>
    simp only [Bool.and_eq_true, beq_iff_eq, Bool.not_eq_true'] at hfirst
    have hvoid : row.isVoid = true := by rw [Text.isVoid, ← row.drop_leading, hrest]; rfl
    exact .pure (by simpa using h.void hline ⟨hpending, hfirst.1, hfirst.2⟩ hvoid)
  | case5 hpending hfirst leading hrest hcomment =>
    simp only [Bool.and_eq_true, beq_iff_eq, Bool.not_eq_true'] at hfirst
    have hvoid : row.isVoid = false := by
      rw [Text.isVoid, ← row.drop_leading]
      split
      · next hempty => exact absurd hempty hrest
      · next b rest hcons =>
        rw [beq_eq_false_iff_ne]
        rintro rfl
        exact hcomment rest hcons
    refine (h.reindent hline ⟨hpending, hfirst.1, hfirst.2⟩ hvoid).bind fun marks hmarks => ?_
    refine (hmarks.1.readToEnd (by rw [← hmarks.2])).bind fun read hread => .pure ?_
    simpa using hread
  | case6 hpending hjoined => exact (h.join hline hpending).readToEnd rfl

theorem readLines {todo : List (Nat × Text)} (h : Reached file lines tokens (.before n) layout)
    (htodo : ∀ i line, todo[i]? = some line → line.1 = n + i ∧ line ∈ Lines.numbered lines) :
    Outcome file lines
      (fun read => Reached file lines (tokens ++ read.1) (.before (n + todo.length)) read.2)
      (readLines file todo layout) := by
  induction todo generalizing tokens layout n with
  | nil => exact .pure (by simpa using h)
  | cons numbered rest ih =>
    obtain ⟨number, line⟩ := numbered
    obtain ⟨rfl, hline⟩ : number = n ∧ (number, line) ∈ Lines.numbered lines := by
      simpa using htodo 0 (number, line) rfl
    refine (h.readLine hline).bind fun first hfirst =>
      (ih hfirst fun i line hi => ?_).bind fun more hmore => .pure ?_
    · have hat := htodo (i + 1) line (by simpa using hi)
      exact ⟨by omega, hat.2⟩
    · rwa [← append_assoc, length_cons, Nat.add_comm rest.length, ← Nat.add_assoc]

end Reached

end Layout

/-- Every line has a number and stands under it. -/
theorem Lines.numbered_getElem? {lines : List Text} (i : Nat) (line : Nat × Text)
    (h : (numbered lines)[i]? = some line) : line.1 = 1 + i ∧ line ∈ numbered lines := by
  refine ⟨?_, mem_of_getElem? h⟩
  simp only [numbered, getElem?_mapIdx, Option.map_eq_some_iff] at h
  obtain ⟨_, -, rfl⟩ := h
  exact Nat.add_comm i 1

namespace Source

/-- The tokens of a whole source: those that its lines give, and a dedent for every indentation that
is left then. -/
structure Closes (source : Source) (read : List Token) (layout : Layout) (tokens : List Token) :
    Prop where
  reached : Layout.Reached source.file source.lines read (.before (source.lines.length + 1)) layout
  fresh : layout.IsFresh
  tokens_eq : tokens = read ++ Layout.dedents source.file ⟨source.lines.length, 1⟩
    (layout.indents.drop 1)
  sited : ∀ t ∈ tokens, t.file = source.file ∧ Lines.HasPosition source.lines t.start ∧
    t.kind ≠ .done

theorem outcome_readTokens (source : Source) :
    Layout.Outcome source.file source.lines
      (fun tokens => ∃ read layout, source.Closes read layout tokens) source.readTokens := by
  by_cases hlines : source.lines = []
  · have hread : source.readTokens = .ok [] := by rw [readTokens, hlines]; rfl
    rw [hread]
    exact ⟨[], {}, by simpa [hlines] using .start, ⟨rfl, rfl, rfl⟩, rfl, by simp⟩
  · -- The first column of the last line is a position.
    have hposition : Lines.HasPosition source.lines ⟨source.lines.length, 1⟩ := by
      have hlt : source.lines.length - 1 < source.lines.length := by
        have := length_pos_iff.mpr hlines
        omega
      exact Layout.hasPosition_on (Lines.mem_numbered.mpr ⟨_, by omega, getElem?_eq_getElem hlt⟩)
        (Nat.zero_le _)
    refine (Layout.Reached.start.readLines Lines.numbered_getElem?).bind fun read hread => ?_
    obtain ⟨tokens, layout⟩ := read
    have hreached : Layout.Reached source.file source.lines tokens
        (.before (source.lines.length + 1)) layout := by
      simpa [Lines.numbered, Nat.add_comm] using hread
    dsimp only
    cases hpending : layout.pending with
    | some string =>
      rw [Layout.close, hpending]
      exact ⟨rfl, (hreached.sited.string string hpending).1⟩
    | none =>
      rw [Layout.close, hpending]
      dsimp only
      split
      · exact ⟨rfl, hposition⟩
      · next hclosed =>
        simp only [Bool.or_eq_true, decide_eq_true_eq, not_or, Nat.not_lt, Nat.le_zero_eq,
          Bool.not_eq_true] at hclosed
        refine ⟨tokens, layout, hreached, ⟨hpending, hclosed.1, hclosed.2⟩, rfl, fun t ht => ?_⟩
        rcases mem_append.mp ht with ht | ht
        · exact hreached.sited.token t ht
        · exact Layout.sited_dedents hposition _ t ht

theorem exists_closes {source : Source} {tokens : List Token} (h : source.readTokens = .ok tokens) :
    ∃ read layout, source.Closes read layout tokens := by
  have houtcome := source.outcome_readTokens
  rwa [h] at houtcome

end Source

end NameInference

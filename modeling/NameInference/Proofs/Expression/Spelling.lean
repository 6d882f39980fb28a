import NameInference.Token.Layout
import NameInference.Proofs.Token.Spelling
import NameInference.Proofs.Expression.Symbols

/-!
# Reading the bytes of a printed expression

The bytes of a printed expression are read as its symbols: blanks separate words and operators, and
next to a word or a number without a blank only brackets, commas and the dot of an attribute can
stand, the last one never behind a number.
-/

namespace NameInference

open Lexeme List NameInference.Symbol Piece

variable {after : List Piece} {e : Expr}

/-- The bytes of pieces. -/
def bytesOf (pieces : List Piece) : Text := pieces.flatMap Piece.bytes

@[simp] theorem bytesOf_nil : bytesOf [] = [] := rfl

@[simp] theorem bytesOf_blank (rest : List Piece) :
    bytesOf (.blank :: rest) = 0x20 :: bytesOf rest := rfl

@[simp] theorem bytesOf_symbol (s : Symbol) (rest : List Piece) :
    bytesOf (.symbol s :: rest) = s.2 ++ bytesOf rest := rfl

/-- The spelling of a symbol before other bytes is read as that symbol. -/
def Symbol.ReadBefore (s : Symbol) (rest : Text) : Prop :=
  ∃ b t, s.2 = b :: t ∧ Lexeme.ofBytes b (t ++ rest) = .token s.1 t.length

/-- Every symbol is read before the bytes that follow it. -/
def Readable : List Piece → Prop
  | [] => True
  | .blank :: rest => Readable rest
  | .symbol s :: rest => s.ReadBefore (bytesOf rest) ∧ Readable rest

namespace Symbol

variable {s : Symbol} {rest : Text}

/-- A word of the given kind. -/
def isWord (s : Symbol) : Bool :=
  s.2.head?.any startsName && s.2.tail.all continuesName && wordKind s.2 == s.1

theorem readBefore_of_isWord (h : s.isWord = true) (hrest : EndsWord rest) : s.ReadBefore rest := by
  obtain ⟨kind, spelling⟩ := s
  cases spelling with
  | nil => cases h
  | cons b t =>
    simp only [isWord, head?_cons, Option.any_some, tail_cons, Bool.and_eq_true, all_eq_true,
      beq_iff_eq] at h
    obtain ⟨⟨hb, ht⟩, rfl⟩ := h
    exact ⟨b, t, rfl, ofBytes_word hb ht hrest⟩

/-- An operator of the given kind that no number begins with. -/
def isOperator (s : Symbol) : Bool :=
  s.2.head?.any (fun b => opensOperator b && !Byte.isDigit b && b != 0x2E) &&
    ofOperator (s.2.headD 0) s.2.tail == .token s.1 s.2.tail.length

theorem readBefore_of_isOperator (h : s.isOperator = true)
    (hrest : ofOperator (s.2.headD 0) (s.2.tail ++ rest) = ofOperator (s.2.headD 0) s.2.tail) :
    s.ReadBefore rest := by
  obtain ⟨kind, spelling⟩ := s
  cases spelling with
  | nil => cases h
  | cons b t =>
    simp only [isOperator, head?_cons, Option.any_some, tail_cons, headD_cons, Bool.and_eq_true,
      Bool.not_eq_true', bne_iff_ne, beq_iff_eq] at h hrest
    obtain ⟨⟨⟨hb, hdigit⟩, hdot⟩, hop⟩ := h
    refine ⟨b, t, rfl, ?_⟩
    rw [ofBytes_eq_ofOperator hb (by simp [startsNumber, hdigit, hdot]), hrest, hop]

/-- No operator goes on with a blank, a letter or a digit. -/
theorem operators_free : ∀ entry ∈ inBytes operators, ∀ y ∈ entry.1.tail,
    startsName y = false ∧ Byte.isDigit y = false ∧ y ≠ 0x20 := by
  decide +kernel

theorem endsOperator_blank (rest : Text) : EndsOperator (0x20 :: rest) := by
  intro x hx entry hentry hmem
  obtain rfl : 0x20 = x := by simpa using hx
  exact (operators_free entry hentry _ hmem).2.2 rfl

/-- Names and numbers begin with a byte with which no operator goes on. -/
theorem endsOperator_of_word {x : UInt8} (hx : startsName x = true ∨ Byte.isDigit x = true)
    (rest : Text) :
    EndsOperator (x :: rest) := by
  intro y hy entry hentry hmem
  obtain rfl : x = y := by simpa using hy
  obtain ⟨hletter, hdigit, -⟩ := operators_free entry hentry x hmem
  simp [hletter, hdigit] at hx

/-- Words and operators are read before a blank. -/
theorem readBefore_blank (h : (s.isWord || s.isOperator) = true) (rest : Text) :
    s.ReadBefore (0x20 :: rest) := by
  rcases Bool.or_eq_true_iff.mp h with h | h
  · refine readBefore_of_isWord h fun x hx => ?_
    obtain rfl : 0x20 = x := by simpa using hx
    decide
  · exact readBefore_of_isOperator h (ofOperator_append (endsOperator_blank rest))

/-- An operator of one byte that begins no longer operator. -/
def standsAlone (s : Symbol) : Bool :=
  s.isOperator && s.2.tail.isEmpty &&
    (inBytes operators).all fun entry => entry.1.head? != s.2.head? || entry.1 == s.2

/-- Such an operator is read before everything. -/
theorem readBefore_of_standsAlone (h : s.standsAlone = true) (rest : Text) : s.ReadBefore rest := by
  obtain ⟨kind, spelling⟩ := s
  cases spelling with
  | nil => cases h
  | cons b t =>
    simp only [standsAlone, List.tail_cons, List.head?_cons, Bool.and_eq_true, List.isEmpty_iff,
      List.all_eq_true, Bool.or_eq_true, bne_iff_ne, beq_iff_eq] at h
    obtain ⟨⟨hop, rfl⟩, halone⟩ := h
    refine readBefore_of_isOperator hop (ofOperator_single fun entry hentry hhead => ?_)
    exact (halone entry hentry).resolve_left fun hne => hne hhead

theorem dot_spelling : dot.2 = [0x2E] ∧ ofOperator 0x2E [] = .token dot.1 0 := by decide +kernel

/-- A dot before a name is read as it is. -/
theorem dot_readBefore {x : UInt8} (hx : startsName x = true) (rest : Text) :
    dot.ReadBefore (x :: rest) := by
  have hdigit : Byte.isDigit x = false := by
    grind [startsName, Byte.isLetter, Byte.isDigit]
  have hpoint : Byte.isDigit 0x2E = false := by decide
  refine ⟨0x2E, [], dot_spelling.1, ?_⟩
  rw [nil_append, ofBytes_eq_ofOperator (by decide) (by simp [startsNumber, hdigit, hpoint]),
    ← nil_append (x :: rest), ofOperator_append (endsOperator_of_word (.inl hx) rest)]
  exact dot_spelling.2

/-- The bytes that may follow a number. -/
def breakers : List UInt8 := [0x20, 0x28, 0x29, 0x5B, 0x5D, 0x2C, 0x3A, 0x3D]

/-- What may follow a number without a blank. -/
def Breaks (rest : Text) : Prop := ∀ x ∈ rest.head?, x ∈ breakers

theorem Breaks.endsWord (h : Breaks rest) : EndsWord rest := by
  have hall : breakers.all (fun x => !continuesName x && !isQuote x) = true := by decide
  intro x hx
  simpa using all_eq_true.mp hall x (h x hx)

theorem Breaks.endsNumber (h : Breaks rest) : EndsNumber rest := by
  have hall : breakers.all (fun x => !Byte.isDigit x && !startsName x && x != 0x2E) = true := by
    decide
  intro x hx
  simpa [and_assoc] using all_eq_true.mp hall x (h x hx)

theorem breaks_blank (rest : Text) : Breaks (0x20 :: rest) := by
  intro x hx
  obtain rfl : 0x20 = x := by simpa using hx
  decide

/-- A symbol that begins with such a byte. -/
theorem breaks_append (h : s.2.head?.any (· ∈ breakers) = true) (rest : Text) :
    Breaks (s.2 ++ rest) := by
  obtain ⟨kind, spelling⟩ := s
  cases spelling with
  | nil => cases h
  | cons b t =>
    intro x hx
    obtain rfl : b = x := by simpa using hx
    simpa using h

theorem startsName_first (id : Identifier) : startsName id.first = true := by
  rcases id.starts with h | h <;> simp [startsName, h]

theorem ident_isWord (id : Identifier) : (ident id).isWord = true := by
  have hmore : ∀ b ∈ id.more, continuesName b = true := by
    intro b hb
    rcases id.continues b hb with h | h | h <;> simp [continuesName, startsName, h]
  have hkind : wordKind id.text = .ident := by
    have hnone : (inBytes keywords).lookup id.text = none := by
      rw [lookup_eq_none_iff]
      intro entry hentry
      obtain ⟨source, hsource, rfl⟩ := mem_map.mp hentry
      simpa using fun h => id.notKeyword source hsource h.symm
    rw [wordKind, hnone, Option.getD_none]
  simp only [isWord, ident, Identifier.text, head?_cons, Option.any_some, startsName_first,
    tail_cons, Bool.true_and, Bool.and_eq_true, all_eq_true, beq_iff_eq]
  exact ⟨hmore, hkind⟩

/-- Every symbol but numbers and dots is a word or an operator. -/
theorem Printed.isWord_or_isOperator (h : s.Printed) (hs : s.1 ∉ [.int, .dot]) :
    (s.isWord || s.isOperator) = true := by
  cases h with
  | ident id => rw [ident_isWord, Bool.true_or]
  | int literal => exact absurd mem_cons_self hs
  | dot => exact absurd (mem_cons_of_mem _ mem_cons_self) hs
  | unary op => cases op <;> decide +kernel
  | binary op => cases op <;> decide +kernel
  | boolean op => cases op <;> decide +kernel
  | compare op hmem =>
    have hop : ∀ s ∈ op.symbols, (s.isWord || s.isOperator) = true := by cases op <;> decide +kernel
    exact hop s hmem
  | _ => decide +kernel

theorem int_readBefore (literal : Numeral) (h : EndsNumber rest) : (int literal).ReadBefore rest :=
  ⟨literal.first, literal.more, rfl, ofBytes_decimal literal.starts literal.continues h⟩

end Symbol

/-- The symbols that may stand next to everything. -/
def Symbol.brackets : List Symbol := [openParen, closeParen, openBracket, closeBracket, comma]

/-- Pieces that may follow every expression. -/
def Detached (after : List Piece) : Prop := Readable after ∧ Symbol.Breaks (bytesOf after)

/-- A bracket or a comma is read before everything and may follow everything. -/
theorem detached_bracket {s : Symbol} (hs : s ∈ Symbol.brackets) (hafter : Readable after) :
    Detached (.symbol s :: after) := by
  have hall : ∀ s ∈ Symbol.brackets, s.standsAlone = true ∧
      s.2.head?.any (· ∈ Symbol.breakers) = true := by decide +kernel
  obtain ⟨halone, hbreaks⟩ := hall s hs
  exact ⟨⟨readBefore_of_standsAlone halone _, hafter⟩, breaks_append hbreaks _⟩

/-- Words and operators between blanks are read and may follow everything. -/
theorem detached_spaced {symbols : List Symbol} (h : ∀ s ∈ symbols, s.Printed ∧ s.1 ∉ [.int, .dot])
    (hafter : Readable after) : Detached (spaced symbols ++ after) := by
  refine ⟨?_, breaks_blank _⟩
  suffices hinner : Readable ((symbols.map Piece.symbol).intersperse .blank ++ .blank :: after) by
    simpa [spaced, Readable] using hinner
  induction symbols with
  | nil => exact hafter
  | cons s rest ih =>
    have hrest := ih fun t ht => h t (mem_cons_of_mem _ ht)
    obtain ⟨hprinted, hs⟩ := h s mem_cons_self
    have hspelled := hprinted.isWord_or_isOperator hs
    cases rest with
    | nil => exact ⟨readBefore_blank hspelled _, hrest⟩
    | cons t rest => exact ⟨readBefore_blank hspelled _, hrest⟩

theorem detached_symbol {s : Symbol} (h : s.Printed) (hs : s.1 ∉ [.int, .dot])
    (hafter : Readable after) : Detached (spaced [s] ++ after) :=
  detached_spaced (forall_mem_singleton.mpr ⟨h, hs⟩) hafter

namespace Expr

/-- What may follow an expression without a blank: a dot follows only what is no number. -/
def Precedes (e : Expr) (rest : Text) : Prop :=
  Symbol.Breaks rest ∨ e.precedence = .primary ∧ e.isInt = false ∧ EndsWord rest

/-- The pieces of an expression are read before everything that may follow it. -/
def Legible (e : Expr) : Prop :=
  ∀ after, Readable after → e.Precedes (bytesOf after) → Readable (e.pieces ++ after)

theorem Legible.before (h : e.Legible) (hafter : Detached after) :
    Readable (e.pieces ++ after) :=
  h after hafter.1 (Or.inl hafter.2)

/-- An operand is read, in parentheses or without. -/
theorem Legible.enclosed (h : e.Legible) {needed : Bool} (hafter : Readable after)
    (hprecedes : needed = false → e.Precedes (bytesOf after)) :
    Readable (Piece.enclosed needed e.pieces ++ after) := by
  cases needed with
  | false => exact h after hafter (hprecedes rfl)
  | true =>
    have hinside := h.before
      (detached_bracket (s := Symbol.closeParen) (by simp [Symbol.brackets]) hafter)
    simpa [Piece.enclosed]
      using (detached_bracket (s := Symbol.openParen) (by simp [Symbol.brackets]) hinside).1

theorem Legible.operand (h : e.Legible) {needed : Bool} (hafter : Detached after) :
    Readable (Piece.enclosed needed e.pieces ++ after) :=
  h.enclosed hafter.1 fun _ => Or.inl hafter.2

/-- Operands behind separators are read. -/
theorem detached_operands {α : Type} (separator : α → List Piece) (operand : α → Expr)
    (place : Precedence) {items : List α}
    (hseparator : ∀ x ∈ items, ∀ more, Readable more → Detached (separator x ++ more))
    (hoperand : ∀ x ∈ items, (operand x).Legible) (hafter : Detached after) :
    Detached (items.flatMap (fun x => separator x ++ (operand x).piecesAt place) ++ after) := by
  induction items with
  | nil => exact hafter
  | cons x items ih =>
    have hrest := ih (fun y hy => hseparator y (mem_cons_of_mem _ hy))
      (fun y hy => hoperand y (mem_cons_of_mem _ hy))
    rw [flatMap_cons, append_assoc, append_assoc]
    exact hseparator x mem_cons_self _ ((hoperand x mem_cons_self).operand hrest)

/-- An expression that binds looser than a primary one is read before what may follow every
expression. -/
theorem Legible.of_loose (hloose : e.precedence ≠ .primary)
    (h : ∀ after, Detached after → Readable (e.pieces ++ after)) : e.Legible :=
  fun after hafter hprecedes =>
    h after ⟨hafter, hprecedes.resolve_right fun hprimary => hloose hprimary.1⟩

private theorem attr_legible {value : Expr} (h : value.Legible) (member : Identifier) :
    (attr value member).Legible := by
  intro after hafter hprecedes
  have hmember : (Symbol.ident member).ReadBefore (bytesOf after) :=
    readBefore_of_isWord (ident_isWord member) (hprecedes.elim (·.endsWord) (·.2.2))
  have hdot : Symbol.dot.ReadBefore (member.text ++ bytesOf after) :=
    dot_readBefore (startsName_first member) _
  rw [pieces, append_assoc]
  refine h.enclosed ⟨hdot, hmember, hafter⟩ fun hneeded => ?_
  obtain ⟨hlooser, hint⟩ := Bool.or_eq_false_iff.mp hneeded
  have hprimary : ∀ p : Precedence, p.looser .primary = false → p = .primary := by
    intro p
    cases p <;> decide
  refine Or.inr ⟨hprimary _ hlooser, hint, ?_⟩
  intro x hx
  obtain rfl : 0x2E = x := by simpa [dot_spelling] using hx
  decide

private theorem call_legible {callee : Expr} (h : callee.Legible) {args : List Expr}
    (hargs : ∀ e ∈ args, e.Legible) :
    (call callee args).Legible := by
  intro after hafter _
  have hclose := detached_bracket (s := Symbol.closeParen) (by simp [Symbol.brackets]) hafter
  cases args with
  | nil =>
    rw [pieces, append_assoc]
    exact h.operand (detached_bracket (s := Symbol.openParen) (by simp [Symbol.brackets]) hclose.1)
  | cons first more =>
    have hcomma : ∀ rest, Readable rest → Detached ([.symbol Symbol.comma, .blank] ++ rest) := by
      intro rest hrest
      have hblank : Readable (.blank :: rest) := hrest
      exact detached_bracket (s := Symbol.comma) (by simp [Symbol.brackets]) hblank
    have hmore := detached_operands (fun _ => [.symbol Symbol.comma, .blank]) (fun e => e) .test
      (fun _ _ => hcomma) (fun e he => hargs e (mem_cons_of_mem _ he)) hclose
    have hfirst := (hargs first mem_cons_self).before hmore
    rw [pieces, listed_eq]
    simpa using h.operand
      (detached_bracket (s := Symbol.openParen) (by simp [Symbol.brackets]) hfirst)

/-- Every expression is legible. -/
theorem legible (e : Expr) : e.Legible := by
  induction e with
  | name id =>
    intro after hafter hprecedes
    refine ⟨readBefore_of_isWord (ident_isWord id) ?_, hafter⟩
    exact hprecedes.elim (·.endsWord) (·.2.2)
  | int literal =>
    intro after hafter hprecedes
    refine ⟨int_readBefore literal ?_, hafter⟩
    exact hprecedes.elim (·.endsNumber) fun h => absurd h.2.1 (by simp [isInt])
  | unary op e ih =>
    refine .of_loose (show op.precedence ≠ .primary by cases op <;> decide) fun after hdetached =>
      ?_
    have hop := (Symbol.Printed.unary op).isWord_or_isOperator (by cases op <;> decide)
    exact ⟨readBefore_blank hop _, ih.operand hdetached⟩
  | binary op l r ihl ihr =>
    refine .of_loose (show op.precedence ≠ .primary by cases op <;> decide) fun after hdetached =>
      ?_
    have hop : op.symbol.1 ∉ [.int, .dot] := by cases op <;> decide
    rw [pieces, append_assoc, append_assoc]
    exact ihl.operand (detached_symbol (.binary op) hop (ihr.operand hdetached))
  | boolean op first second more ihf ihs ihm =>
    refine .of_loose (show op.precedence ≠ .primary by cases op <;> decide) fun after hdetached =>
      ?_
    have hop : op.symbol.1 ∉ [.int, .dot] := by cases op <;> decide
    have hmore := detached_operands _ _ op.place (fun _ _ _ => detached_symbol (.boolean op) hop)
      ihm hdetached
    rw [pieces, listed_eq]
    simpa using ihf.operand (detached_symbol (.boolean op) hop (ihs.operand hmore))
  | compare left op right more ihl ihr ihm =>
    refine .of_loose (by simp [precedence]) fun after hdetached => ?_
    have hop (op : CompareOp) : ∀ s ∈ op.symbols, s.Printed ∧ s.1 ∉ [.int, .dot] := by
      have hkinds : ∀ s ∈ op.symbols, s.1 ∉ [.int, .dot] := by cases op <;> decide
      exact fun s hs => ⟨.compare op hs, hkinds s hs⟩
    have hmore := detached_operands _ _ .bitOr (fun x _ _ => detached_spaced (hop x.1)) ihm
      hdetached
    rw [pieces, compared_eq]
    simpa using ihl.operand (detached_spaced (hop op) (ihr.operand hmore))
  | conditional body test orElse ihb iht iho =>
    refine .of_loose (by simp [precedence]) fun after hdetached => ?_
    have hrest := detached_symbol .elseWord (by decide) (iho.before hdetached)
    rw [pieces]
    simpa using ihb.operand (detached_symbol .ifWord (by decide) (iht.operand hrest))
  | attr value member ih => exact attr_legible ih member
  | call callee args ih iha => exact call_legible ih iha
  | subscript value index ihv ihi =>
    intro after hafter _
    have hindex := ihi.before
      (detached_bracket (s := Symbol.closeBracket) (by simp [Symbol.brackets]) hafter)
    rw [pieces]
    simpa using ihv.operand
      (detached_bracket (s := Symbol.openBracket) (by simp [Symbol.brackets]) hindex)

end Expr

end NameInference

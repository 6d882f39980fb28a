import NameInference.Signature
import NameInference.Proofs.Call.Rule
import NameInference.Proofs.Expression.Line

/-!
# The spelling of signatures

A signature is written as a line of symbols: the parameters and the markers between them stand
between commas, hints and defaults behind a colon and an equal sign. In front of a block it is the
line of a function, and the tokens of that line are its symbols.
-/

namespace NameInference

open Lexeme List NameInference.Symbol Piece

variable {after : List Piece} {t : Text} {s : Symbol}

namespace Symbol

def defWord : Symbol := (.kwDef, "def")

def passWord : Symbol := (.kwPass, "pass")

def star : Symbol := (.star, "*")

def starStar : Symbol := (.starStar, "**")

def slash : Symbol := (.slash, "/")

def colon : Symbol := (.colon, ":")

def equal : Symbol := (.equal, "=")

def arrow : Symbol := (.arrow, "->")

/-- The signs of a signature, brackets apart. -/
def signs : List Symbol := [star, starStar, slash, colon, equal, arrow, comma]

/-- A symbol of visible characters that is no bracket. -/
abbrev IsPlain (x : Symbol) : Prop :=
  (∀ b ∈ x.2, 0x20 ≤ b ∧ b < 0x7F) ∧ (x.1.opensBracket || x.1.closesBracket) = false

theorem plain_signs : ∀ s ∈ signs, s.isOperator = true ∧ s.IsPlain := by decide +kernel

theorem plain_words : ∀ s ∈ [defWord, passWord], s.isWord = true ∧ s.IsPlain := by decide +kernel

theorem breaks_signs :
    ∀ s ∈ [colon, equal], s ∈ signs ∧ s.2.head?.any (· ∈ breakers) = true := by decide +kernel

/-- The texts between the words of a signature. -/
theorem spellings :
    Text.ofString ": " = colon.2 ++ [0x20] ∧ Text.ofString " = " = 0x20 :: equal.2 ++ [0x20] ∧
    Text.ofString ", " = comma.2 ++ [0x20] ∧ Text.ofString "def " = defWord.2 ++ [0x20] ∧
    Text.ofString ": pass" = colon.2 ++ 0x20 :: passWord.2 ∧ Text.ofString " -> " =
      0x20 :: arrow.2 ++ [0x20] := by
  decide +kernel

/-- A name or a decimal integer. -/
def word (t : Text) : Symbol := (if Byte.isDigit (t.headD 0) then .int else .ident, t)

end Symbol

namespace Text

def IsIdentifier (t : Text) : Prop := ∃ id : Identifier, t = id.text

/-- A single identifier or decimal integer. -/
def IsWord (t : Text) : Prop := t.IsIdentifier ∨ ∃ n : Numeral, t = n.text

theorem IsIdentifier.word_eq (h : t.IsIdentifier) :
    ∃ id : Identifier, Symbol.word t = Symbol.ident id := by
  obtain ⟨id, rfl⟩ := h
  have hdigit : Byte.isDigit id.first = false := by
    have hfirst := id.starts
    grind [Byte.isLetter, Byte.isDigit]
  exact ⟨id, by simp [Symbol.word, Symbol.ident, Identifier.text, hdigit]⟩

theorem IsWord.ne_nil (h : t.IsWord) : t ≠ [] := by
  obtain ⟨id, rfl⟩ | ⟨n, rfl⟩ := h <;> exact cons_ne_nil _ _

theorem IsWord.word_eq (h : t.IsWord) :
    (∃ id : Identifier, Symbol.word t = Symbol.ident id) ∨ ∃ n : Numeral, Symbol.word t =
      Symbol.int n := by
  refine h.imp IsIdentifier.word_eq ?_
  rintro ⟨n, rfl⟩
  exact ⟨n, by simp [Symbol.word, Symbol.int, Numeral.text, n.starts]⟩

end Text

namespace Signature

/-- A signature of names and single words, in the order of the language. -/
structure Canonical (s : Signature) : Prop where
  name : s.name.IsIdentifier
  names : ∀ p ∈ s.params, p.name.IsIdentifier
  hints : ∀ p ∈ s.params, ∀ t ∈ p.hint, t.IsWord
  defaults : ∀ p ∈ s.params, ∀ t ∈ p.default, t.IsWord
  returns : ∀ t ∈ s.returns, t.IsWord
  ordered : s.params.Pairwise fun p q =>
    p.kind.rank ≤ q.kind.rank ∧ (p.kind = q.kind → p.kind.isVariadic = false)

/-- An item of a parameter list as it is written. -/
inductive Item where
  | slash
  | star
  | param (p : SignatureParam)

/-- The parameters with the markers between them. -/
def items (starred : Bool) : List SignatureParam → List Item
  | [] => []
  | p :: rest =>
    let starred := starred || p.kind == .varPositional
    let star := p.kind == .keywordOnly && !starred
    let slash := p.kind == .positionalOnly && rest.head?.map (·.kind) != some .positionalOnly
    (if star then [.star] else []) ++ [.param p] ++ (if slash then [.slash] else []) ++
      items (starred || star) rest

/-- Only a star stands before a parameter that is not positional only, and none behind another one.
-/
theorem items_cons {p : SignatureParam} (h : p.kind ≠ .positionalOnly) (starred : Bool)
    (rest : List SignatureParam) :
    items starred (p :: rest) = (if p.kind == .keywordOnly && !starred then [.star] else []) ++
      .param p :: items (starred || p.kind == .varPositional || p.kind == .keywordOnly) rest := by
  rw [items]
  cases hkind : p.kind with
  | positionalOnly => exact absurd hkind h
  | _ => cases starred <;> rfl

/-- A slash stands behind the parameters that are positional only. -/
theorem items_append {front : List SignatureParam} (hfront : ∀ p ∈ front, p.kind = .positionalOnly)
    (hne : front ≠ []) {rest : List SignatureParam} (hrest : ∀ p ∈ rest, p.kind ≠ .positionalOnly) :
    items false (front ++ rest) = front.map .param ++ .slash :: items false rest := by
  have hhead : (rest.head?.map (·.kind) != some .positionalOnly) = true := by
    cases rest with
    | nil => rfl
    | cons q rest => simpa using hrest q mem_cons_self
  induction front with
  | nil => exact absurd rfl hne
  | cons p front ih =>
    obtain ⟨hp, hfront⟩ := forall_mem_cons.mp hfront
    rw [cons_append, items, hp]
    cases front with
    | nil =>
      rw [nil_append, hhead]
      rfl
    | cons q front =>
      have hq : q.kind = .positionalOnly := hfront q mem_cons_self
      have hnext : (((q :: front ++ rest).head?).map (·.kind) != some .positionalOnly) = false := by
        simp [hq]
      rw [hnext]
      exact congrArg (.param p :: ·) (ih hfront (cons_ne_nil _ _))

/-- A word behind its sign, if there is one. -/
def given (sign : List Piece) : Option Text → List Piece
  | none => []
  | some t => sign ++ [.symbol (Symbol.word t)]

def stars : ParamKind → List Piece
  | .varPositional => [.symbol Symbol.star]
  | .varKeyword => [.symbol Symbol.starStar]
  | _ => []

def Item.pieces : Item → List Piece
  | slash => [.symbol Symbol.slash]
  | star => [.symbol Symbol.star]
  | param p =>
    stars p.kind ++ .symbol (Symbol.word p.name) :: (given [.symbol Symbol.colon, .blank] p.hint ++
      given (if p.hint.isSome then [.blank, .symbol Symbol.equal, .blank]
        else [.symbol Symbol.equal]) p.default)

/-- Items with commas between them. -/
def listed : List Item → List Piece
  | [] => []
  | first :: more =>
    first.pieces ++ more.flatMap fun item => .symbol Symbol.comma :: .blank :: item.pieces

/-- The line of a function behind its first word. -/
def line (s : Signature) : List Piece :=
  .blank :: .symbol (Symbol.word s.name) :: .symbol Symbol.openParen ::
    (listed (items false s.params) ++
      .symbol Symbol.closeParen :: (given [.blank, .symbol Symbol.arrow, .blank] s.returns ++
      [.symbol Symbol.colon, .blank, .symbol Symbol.passWord]))

/-- The source of a function with the signature. -/
def source (s : Signature) : Text := "def " ++ s.text ++ ": pass"

theorem bytesOf_append (pieces more : List Piece) :
    bytesOf (pieces ++ more) = bytesOf pieces ++ bytesOf more :=
  flatMap_append

/-- The pieces of a parameter spell it as it is rendered. -/
theorem Item.bytesOf_pieces (p : SignatureParam) : bytesOf (Item.param p).pieces = p.text := by
  obtain ⟨hhint, hspaced, -⟩ := Symbol.spellings
  have hequal : "=" = Symbol.equal.2 := rfl
  have hstar : "*" = Symbol.star.2 := rfl
  have hstars : "**" = Symbol.starStar.2 := rfl
  obtain ⟨name, kind, hint, default⟩ := p
  cases kind <;> cases hint <;> cases default <;>
    simp [Item.pieces, SignatureParam.text, stars, given, Symbol.word, hhint, hspaced, hequal,
      hstar, hstars]

theorem map_items (starred : Bool) (params : List SignatureParam) :
    (items starred params).map (fun item => bytesOf item.pieces) =
      Signature.pieces starred params := by
  induction params generalizing starred with
  | nil => rfl
  | cons p rest ih =>
    have hstar : bytesOf Item.star.pieces = "*" := append_nil _
    have hslash : bytesOf Item.slash.pieces = "/" := append_nil _
    rw [items, Signature.pieces]
    simp only [map_append, map_cons, map_nil, Item.bytesOf_pieces, ih, apply_ite (List.map _),
      hstar, hslash]

theorem joined_cons (separator first : Text) (more : List Text) :
    Text.joined separator (first :: more) = first ++ more.flatMap (separator ++ ·) := by
  induction more generalizing first with
  | nil => simp [Text.joined]
  | cons next more ih =>
    have hmore : Text.joined separator (first :: next :: more) =
        first ++ (separator ++ Text.joined separator (next :: more)) := rfl
    rw [hmore, ih, flatMap_cons, append_assoc]

theorem bytesOf_listed (list : List Item) :
    bytesOf (listed list) = Text.joined ", " (list.map fun item => bytesOf item.pieces) := by
  obtain ⟨-, -, hcomma, -⟩ := Symbol.spellings
  cases list with
  | nil => rfl
  | cons first more =>
    have hmore : bytesOf (more.flatMap fun item => .symbol Symbol.comma :: .blank :: item.pieces) =
        more.flatMap fun item => bytesOf (.symbol Symbol.comma :: .blank :: item.pieces) :=
          flatMap_assoc
    rw [listed, bytesOf_append, map_cons, joined_cons, hcomma, hmore, flatMap_map]
    simp

/-- The pieces of the line spell the source of the signature. -/
theorem bytesOf_line (s : Signature) : bytesOf (.symbol Symbol.defWord :: s.line) = s.source := by
  obtain ⟨-, -, -, hdef, hpass, harrow⟩ := Symbol.spellings
  have hopen : "(" = Symbol.openParen.2 := rfl
  have hclose : ")" = Symbol.closeParen.2 := rfl
  cases hreturns : s.returns <;>
    simp [line, source, text, given, bytesOf_append, bytesOf_listed, map_items, Symbol.word, hdef,
      hpass, harrow, hopen, hclose, hreturns]

theorem readable_word (h : t.IsWord) (hafter : Detached after) :
    Readable (.symbol (Symbol.word t) :: after) := by
  obtain ⟨id, hid⟩ | ⟨n, hn⟩ := h.word_eq
  · rw [hid]
    exact ⟨readBefore_of_isWord (ident_isWord id) hafter.2.endsWord, hafter.1⟩
  · rw [hn]
    exact ⟨int_readBefore n hafter.2.endsNumber, hafter.1⟩

theorem endsOperator_word (h : t.IsWord) (after : List Piece) :
    EndsOperator (bytesOf (.symbol (Symbol.word t) :: after)) := by
  obtain ⟨id, rfl⟩ | ⟨n, rfl⟩ := h
  · exact endsOperator_of_word (.inl (startsName_first id)) _
  · exact endsOperator_of_word (.inr n.starts) _

/-- A sign is read before everything that does not continue it. -/
theorem readable_sign (h : s ∈ Symbol.signs) (hends : EndsOperator (bytesOf after))
    (hafter : Readable after) : Readable (.symbol s :: after) :=
  ⟨readBefore_of_isOperator (plain_signs s h).1 (ofOperator_append hends), hafter⟩

/-- A sign, with blanks around it or without, may stand between a word and another one. -/
def Joins (sign : List Piece) : Prop :=
  ∀ t after, t.IsWord → Detached after → Detached (sign ++ .symbol (Symbol.word t) :: after)

theorem joins_spaced (h : s ∈ Symbol.signs) : Joins [.blank, .symbol s, .blank] := by
  intro t after ht hafter
  refine ⟨?_, breaks_blank _⟩
  exact readable_sign h (endsOperator_blank _) (readable_word ht hafter)

theorem joins_tight (h : s ∈ [Symbol.colon, Symbol.equal])
    (hafter : after = [] ∨ after = [.blank]) : Joins (.symbol s :: after) := by
  intro t rest ht hrest
  obtain ⟨hsign, hbreaks⟩ := breaks_signs s h
  have hword := readable_word ht hrest
  refine ⟨?_, breaks_append hbreaks _⟩
  obtain rfl | rfl := hafter
  · exact readable_sign hsign (endsOperator_word ht rest) hword
  · exact readable_sign hsign (endsOperator_blank _) hword

theorem detached_given {sign : List Piece} (h : Joins sign) {o : Option Text}
    (ho : ∀ t ∈ o, t.IsWord) (hafter : Detached after) : Detached (given sign o ++ after) := by
  cases o with
  | none => exact hafter
  | some t =>
    rw [given, append_assoc]
    exact h t after (ho t rfl) hafter

/-- A comma or a closing parenthesis ends both words and operators. -/
theorem detached_closing (hs : s ∈ [Symbol.comma, Symbol.closeParen]) (hafter : Readable after) :
    Detached (.symbol s :: after) ∧ EndsOperator (bytesOf (.symbol s :: after)) := by
  have hall : ∀ s ∈ [Symbol.comma, Symbol.closeParen], s ∈ Symbol.brackets ∧
      s.2.length = 1 ∧ ∀ x ∈ s.2, ∀ entry ∈ inBytes operators, x ∉ entry.1.tail := by decide +kernel
  obtain ⟨hbracket, hlength, hends⟩ := hall s hs
  refine ⟨detached_bracket hbracket hafter, fun x hx => hends x ?_⟩
  obtain ⟨y, hy⟩ := length_eq_one_iff.mp hlength
  simpa [hy, eq_comm] using hx

/-- The names and words of the item are such. -/
def Item.IsPlain : Item → Prop
  | slash | star => True
  | param p => p.name.IsIdentifier ∧ (∀ t ∈ p.hint, t.IsWord) ∧ ∀ t ∈ p.default, t.IsWord

/-- An item is read whole, if what follows it breaks off words. -/
theorem Item.readable {item : Item} (h : item.IsPlain) (hafter : Detached after)
    (hends : EndsOperator (bytesOf after)) : Readable (item.pieces ++ after) := by
  cases item with
  | slash | star => exact readable_sign (by simp [Symbol.signs]) hends hafter.1
  | param p =>
    obtain ⟨hname, hhint, hdefault⟩ := h
    have hequal : Joins (if p.hint.isSome then [.blank, .symbol Symbol.equal, .blank]
        else [.symbol Symbol.equal]) := by
      split
      · exact joins_spaced (by simp [Symbol.signs])
      · exact joins_tight (by simp) (.inl rfl)
    have hcolon : Joins [.symbol Symbol.colon, .blank] := joins_tight (by simp) (.inr rfl)
    have hrest := readable_word (.inl hname)
      (detached_given hcolon hhint (detached_given hequal hdefault hafter))
    have hstars {s : Symbol} (hs : s ∈ Symbol.signs) :=
      readable_sign hs (endsOperator_word (.inl hname) _) hrest
    rw [pieces, append_assoc, cons_append, append_assoc]
    cases p.kind with
    | varPositional => exact hstars (s := Symbol.star) (by simp [Symbol.signs])
    | varKeyword => exact hstars (s := Symbol.starStar) (by simp [Symbol.signs])
    | positionalOnly | positionalOrKeyword | keywordOnly => exact hrest

theorem readable_listed {list : List Item} (h : ∀ item ∈ list, item.IsPlain)
    (hafter : Readable after) : Readable (listed list ++ .symbol Symbol.closeParen :: after) := by
  have hclose := detached_closing (s := Symbol.closeParen) (by simp) hafter
  have hmore {more : List Item} (h : ∀ item ∈ more, item.IsPlain) :
      Detached ((more.flatMap fun item => .symbol Symbol.comma :: .blank :: item.pieces) ++
        .symbol Symbol.closeParen :: after) ∧
      EndsOperator
        (bytesOf ((more.flatMap fun item => .symbol Symbol.comma :: .blank :: item.pieces) ++
          .symbol Symbol.closeParen :: after)) := by
    induction more with
    | nil => exact hclose
    | cons item more ih =>
      obtain ⟨hdetached, hends⟩ := ih fun other hother => h other (mem_cons_of_mem _ hother)
      have hitem : Readable (.blank :: (item.pieces ++ _)) :=
        Item.readable (h item mem_cons_self) hdetached hends
      rw [flatMap_cons, append_assoc]
      exact detached_closing (s := Symbol.comma) (by simp) hitem
  cases list with
  | nil => exact hclose.1.1
  | cons first more =>
    obtain ⟨hdetached, hends⟩ := hmore fun item hitem => h item (mem_cons_of_mem _ hitem)
    rw [listed, append_assoc]
    exact Item.readable (h first mem_cons_self) hdetached hends

theorem mem_of_mem_items {p : SignatureParam} {starred : Bool} {params : List SignatureParam}
    (h : .param p ∈ items starred params) : p ∈ params := by
  induction params generalizing starred with
  | nil => cases h
  | cons q rest ih =>
    rw [items] at h
    simp only [mem_append, mem_cons, not_mem_nil, or_false] at h
    rcases h with ((h | h) | h) | h
    · split at h <;> simp at h
    · exact mem_cons.mpr (.inl (Item.param.inj h))
    · split at h <;> simp at h
    · exact mem_cons_of_mem _ (ih h)

theorem Canonical.isPlain {s : Signature} (h : s.Canonical) :
    ∀ item ∈ items false s.params, item.IsPlain := by
  intro item hitem
  cases item with
  | slash | star => trivial
  | param p =>
    have hp := mem_of_mem_items hitem
    exact ⟨h.names p hp, h.hints p hp, h.defaults p hp⟩

/-- The line of a canonical signature is read piece by piece. -/
theorem Canonical.readable {s : Signature} (h : s.Canonical) :
    Readable (.symbol Symbol.defWord :: s.line) := by
  have hend : Detached [.symbol Symbol.colon, .blank, .symbol Symbol.passWord] := by
    have hpass : Readable [.symbol Symbol.passWord] :=
      ⟨readBefore_of_isWord (plain_words _ (by simp)).1 (by simp [EndsWord]), trivial⟩
    refine ⟨readable_sign (by simp [Symbol.signs]) (endsOperator_blank _) hpass, ?_⟩
    exact breaks_append (breaks_signs Symbol.colon (by simp)).2 _
  have hreturns :=
    detached_given (joins_spaced (s := Symbol.arrow) (by simp [Symbol.signs])) h.returns hend
  have hparams := readable_listed h.isPlain hreturns.1
  have hopen := detached_bracket (s := Symbol.openParen) (by simp [Symbol.brackets]) hparams
  have hdef := (plain_words Symbol.defWord (by simp)).1
  exact ⟨readBefore_blank (by simp [hdef]) _, readable_word (.inl h.name) hopen⟩

/-- A word behind its sign, if there is one. -/
def optional (sign : Symbol) : Option Text → List Symbol
  | none => []
  | some t => [sign, Symbol.word t]

/-- The symbols of an item. -/
def Item.symbols (item : Item) : List Symbol := item.pieces.filterMap Piece.symbol?

theorem filterMap_given {sign : List Piece} (h : sign.filterMap Piece.symbol? = [s])
    (o : Option Text) :
    (given sign o).filterMap Piece.symbol? = optional s o := by
  cases o <;> simp [given, optional, h]

theorem Item.symbols_param (p : SignatureParam) :
    (param p).symbols = (stars p.kind).filterMap Piece.symbol? ++ Symbol.word p.name ::
      (optional Symbol.colon p.hint ++ optional Symbol.equal p.default) := by
  have hequal : (if p.hint.isSome then [.blank, .symbol Symbol.equal, .blank]
      else [.symbol Symbol.equal]).filterMap Piece.symbol? = [Symbol.equal] := by split <;> rfl
  rw [symbols, pieces, filterMap_append, filterMap_symbol, filterMap_append, filterMap_given rfl,
    filterMap_given hequal]

/-- The symbols of the line behind the first word. -/
def lineSymbols (s : Signature) : List Symbol :=
  Symbol.word s.name :: Symbol.openParen ::
    (Parse.separated Symbol.comma Item.symbols (items false s.params) ++
      Symbol.closeParen :: (optional Symbol.arrow s.returns ++ [Symbol.colon, Symbol.passWord]))

/-- The symbols among the pieces are those that the grammar reads. -/
theorem filterMap_line (s : Signature) : s.line.filterMap Piece.symbol? = s.lineSymbols := by
  have hlisted (list : List Item) :
      (listed list).filterMap Piece.symbol? = Parse.separated Symbol.comma Item.symbols list := by
    cases list with
    | nil => rfl
    | cons first more => simp [listed, Parse.separated, filterMap_flatMap, Item.symbols]
  have hreturns : (given [.blank, .symbol Symbol.arrow, .blank] s.returns).filterMap Piece.symbol? =
    _ :=
    filterMap_given rfl s.returns
  simp [line, lineSymbols, hlisted, hreturns]

theorem isPlain_word (h : t.IsWord) : (Symbol.word t).IsPlain := by
  obtain ⟨id, hid⟩ | ⟨n, hn⟩ := h.word_eq
  · exact hid ▸ ⟨(Symbol.Printed.ident id).visible, rfl⟩
  · exact hn ▸ ⟨(Symbol.Printed.int n).visible, rfl⟩

theorem isPlain_optional {sign : Symbol} (hsign : sign ∈ Symbol.signs) {o : Option Text}
    (ho : ∀ t ∈ o, t.IsWord) : ∀ x ∈ optional sign o, x.IsPlain := by
  cases o with
  | none => exact fun x hx => absurd hx not_mem_nil
  | some t =>
    exact forall_mem_cons.mpr
      ⟨(plain_signs _ hsign).2, forall_mem_singleton.mpr (isPlain_word (ho t rfl))⟩

theorem Item.isPlain_symbols {item : Item} (h : item.IsPlain) : ∀ x ∈ item.symbols, x.IsPlain := by
  cases item with
  | slash | star => exact forall_mem_singleton.mpr (plain_signs _ (by simp [Symbol.signs])).2
  | param p =>
    obtain ⟨hname, hhint, hdefault⟩ := h
    rw [symbols_param]
    refine forall_mem_append.mpr ⟨?_, forall_mem_cons.mpr ⟨isPlain_word (.inl hname),
      forall_mem_append.mpr ⟨isPlain_optional (by simp [Symbol.signs]) hhint,
        isPlain_optional (by simp [Symbol.signs]) hdefault⟩⟩⟩
    cases p.kind with
    | varPositional | varKeyword =>
      exact forall_mem_singleton.mpr (plain_signs _ (by simp [Symbol.signs])).2
    | positionalOnly | positionalOrKeyword | keywordOnly => exact fun x hx => absurd hx not_mem_nil

namespace Canonical

variable {s : Signature} (h : s.Canonical)

include h

theorem isPlain_separated :
    ∀ x ∈ Parse.separated Symbol.comma Item.symbols (items false s.params), x.IsPlain := by
  have hitems := h.isPlain
  generalize items false s.params = list at hitems
  cases list with
  | nil => exact fun x hx => absurd hx not_mem_nil
  | cons first more =>
    obtain ⟨hfirst, hmore⟩ := forall_mem_cons.mp hitems
    refine forall_mem_append.mpr ⟨Item.isPlain_symbols hfirst, fun x hx => ?_⟩
    obtain ⟨item, hitem, hx⟩ := mem_flatMap.mp hx
    rcases mem_cons.mp hx with rfl | hx
    · exact (plain_signs _ (by simp [Symbol.signs])).2
    · exact Item.isPlain_symbols (hmore item hitem) x hx

theorem isPlain_end :
    ∀ x ∈ optional Symbol.arrow s.returns ++ [Symbol.colon, Symbol.passWord], x.IsPlain :=
  forall_mem_append.mpr ⟨isPlain_optional (by simp [Symbol.signs]) h.returns,
    forall_mem_cons.mpr ⟨(plain_signs _ (by simp [Symbol.signs])).2,
      forall_mem_singleton.mpr (plain_words _ (by simp)).2⟩⟩

/-- Every bracket of the line is closed in it. -/
theorem balanced : Balanced (Symbol.defWord :: s.lineSymbols) := by
  have hparams := Balanced.plain fun x hx => (h.isPlain_separated x hx).2
  have hend := Balanced.plain fun x hx => (h.isPlain_end x hx).2
  have hlist : Balanced (Symbol.openParen :: _ ++ [Symbol.closeParen]) :=
    hparams.bracketed rfl rfl rfl
  have hlist := hlist.append hend
  rw [append_assoc] at hlist
  exact .cons rfl (.cons (isPlain_word (.inl h.name)).2 hlist)

theorem visible : ∀ x ∈ Symbol.defWord :: s.lineSymbols, ∀ b ∈ x.2, 0x20 ≤ b ∧ b < 0x7F := by
  refine forall_mem_cons.mpr ⟨(plain_words _ (by simp)).2.1, forall_mem_cons.mpr
    ⟨(isPlain_word (.inl h.name)).1, forall_mem_cons.mpr ⟨Symbol.Printed.openParen.visible,
      forall_mem_append.mpr ⟨fun x hx => (h.isPlain_separated x hx).1, forall_mem_cons.mpr
        ⟨Symbol.Printed.closeParen.visible, fun x hx => (h.isPlain_end x hx).1⟩⟩⟩⟩⟩

/-- The source is one line, and its tokens are the symbols of the line, a newline and the end. -/
theorem stackedTokens_source (file : Text) :
    Source.lines ⟨s.source, file⟩ = [s.source] ∧
      ∃ tokens, Source.stackedTokens [⟨s.source, file⟩] = .ok tokens ∧
        tokens.map Token.symbol = Symbol.defWord :: s.lineSymbols ++
          [Symbol.newline, Symbol.finish] := by
  rw [← bytesOf_line, ← filterMap_line]
  exact Source.stackedTokens_line h.readable (filterMap_line s ▸ h.balanced)
    (filterMap_line s ▸ h.visible) file

end Canonical

end Signature

end NameInference

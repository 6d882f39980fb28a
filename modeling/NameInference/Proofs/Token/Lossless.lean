import NameInference.Proofs.Token.Account
import NameInference.Proofs.Token.Reading

/-!
# Reading loses nothing

The reader of logical lines keeps an account of the source: behind every physical line, the bytes
read so far lie in tokens or separate them, and the text of a string that is still open is the
source from its first quote on. So the tokens of an accepted source spell their spans in order, and
what they leave out is blanks, comments and continuations.
-/

namespace NameInference

open Lines List

variable {tokens : List Token}

/-- The tokens that stand for bytes of the source. -/
def visible (tokens : List Token) : List Token := tokens.filter fun token => !token.kind.isLayout

@[simp] theorem visible_append (tokens more : List Token) :
    visible (tokens ++ more) = visible tokens ++ visible more := filter_append ..

theorem visible_concat {t : Token} (h : t.kind.isLayout = false) :
    visible (tokens ++ [t]) = visible tokens ++ [t] := by
  simp [visible, h]

/-- Layout shows nowhere. -/
theorem visible_concat_layout {t : Token} (h : t.kind.isLayout = true) :
    visible (tokens ++ [t]) = visible tokens := by
  simp [visible, h]

/-- None of the tokens is the end. -/
def Endless (tokens : List Token) : Prop := ∀ token ∈ tokens, token.kind ≠ .done

/-- A string whose text is the source from its beginning up to a position. -/
structure OpenString.Spells (lines : List Text) (string : OpenString) (p : Position) : Prop where
  start_lt : string.start < p
  text_eq : string.text = Lines.slice lines string.start p

namespace Layout

/-- Everything before a spot is accounted for, except for a string that is still open. -/
def Stands (lines : List Text) (tokens : List Token) (n : Nat) (layout : Layout) : Prop :=
  match layout.pending with
  | none => Account lines tokens ⟨n, 1⟩
  | some string => Account lines tokens string.start ∧ string.Spells lines ⟨n, 1⟩

/-- Everything before a spot is accounted for. -/
def Accounts (lines : List Text) (tokens : List Token) (layout : Layout) : Spot → Prop
  | .before n => Stands lines tokens n layout
  | .within n _ c => Account lines tokens ⟨n, c + 1⟩
  | .behind n _ => Stands lines tokens (n + 1) layout

variable {file : Text} {lines : List Text} {tokens : List Token} {spot : Spot} {layout : Layout}
  {n c : Nat} {row : Text} {string : OpenString}

theorem stands_none (h : layout.pending = none) :
    Stands lines tokens n layout ↔ Account lines tokens ⟨n, 1⟩ := by
  rw [Stands, h]

theorem stands_some (h : layout.pending = some string) :
    Stands lines tokens n layout ↔ Account lines tokens string.start ∧
      string.Spells lines ⟨n, 1⟩ := by
  rw [Stands, h]

theorem visible_dedents (p : Position) (left : List Nat) :
    visible (tokens ++ dedents file p left) = visible tokens := by
  have hnil : visible (dedents file p left) = [] := by
    simp [visible, dedents, mark, TokenKind.isLayout]
  rw [visible_append, hnil, append_nil]

/-- A token on one line spells the bytes it took. -/
private theorem spells_onLine (hline : (n, row) ∈ Lines.numbered lines) {more : Nat} {b : UInt8}
    {rest : Text} (hrest : row.drop c = b :: rest) (hmore : c + 1 + more ≤ row.length)
    (kind : TokenKind) (file : Text) :
    Token.Spells lines ⟨kind, b :: rest.take more, file, ⟨n, c + 1⟩, ⟨n, c + 1 + more + 1⟩⟩ := by
  obtain ⟨k, rfl, hk⟩ := mem_numbered.mp hline
  have hstop := hasPosition_on hline hmore
  refine ⟨?_, hasPosition_on hline (by omega), hstop, ?_⟩
  · simp only [Token.start, Token.stop, Position.mk_lt_mk_same]
    omega
  · simp only [Token.start, Token.stop]
    rw [between_eq_slice hstop, slice_line hk (by omega) hmore, hrest,
      show c + 1 + more - c = more + 1 by omega, take_succ_cons]

/-- Leading blanks are accounted for. -/
private theorem account_leading (hline : (n, row) ∈ Lines.numbered lines)
    (account : Account lines tokens ⟨n, 1⟩) :
    Account lines tokens ⟨n, row.leading.length + 1⟩ := by
  refine account.blanks hline (Nat.zero_le _) fun b hb => ?_
  rw [drop_zero, Nat.sub_zero, ← prefix_iff_eq_take.mp (List.takeWhile_prefix _)] at hb
  exact Lexeme.mem_of_isBlank (all_eq_true.mp all_takeWhile b hb)

/-- A comment takes the rest of its line. -/
private theorem account_stop (hline : (n, row) ∈ Lines.numbered lines) (hc : c ≤ row.length)
    (hrest : row.drop c = [] ∨ ∃ rest, row.drop c = 0x23 :: rest)
    (account : Account lines tokens ⟨n, c + 1⟩) :
    Account lines tokens ⟨n + 1, 1⟩ := by
  rcases hrest with hend | ⟨rest, hsign⟩
  · obtain rfl : c = row.length := le_antisymm hc (drop_eq_nil_iff.mp hend)
    exact account.nextLine hline
  · have hat : row[c]? = some 0x23 := by rw [← head?_drop, hsign]; rfl
    exact (account.comment hline hat).nextLine hline

/-- The next line is added to a string that stays open. -/
private theorem stays_open (hline : (n, row) ∈ Lines.numbered lines)
    (hstart : Lines.HasPosition lines string.start) (spells : string.Spells lines ⟨n, 1⟩) :
    OpenString.Spells lines { string with text := string.text ++ row ++ [0x0A] } ⟨n + 1, 1⟩ := by
  obtain ⟨k, rfl, hk⟩ := mem_numbered.mp hline
  have hlt : (⟨k + 1, 1⟩ : Position) < ⟨k + 1 + 1, 1⟩ := by simp [Position.lt_iff]
  have hwhole := slice_lineEnd hk (Nat.zero_le _)
  rw [drop_zero] at hwhole
  refine ⟨spells.start_lt.trans hlt, ?_⟩
  simp only [spells.text_eq, append_assoc]
  rw [← hwhole,
    slice_append hstart (hasPosition_on hline (Nat.zero_le _)) spells.start_lt.le hlt.le]

/-- Three quotes end a string that was open. -/
private theorem closes (hline : (n, row) ∈ Lines.numbered lines)
    (hstart : Lines.HasPosition lines string.start) (spells : string.Spells lines ⟨n, 1⟩)
    {length : Nat} (hlength : length ≤ row.length) (file : Text) :
    Token.Spells lines ⟨string.kind, string.text ++ row.take length, file, string.start,
      ⟨n, length + 1⟩⟩ := by
  obtain ⟨k, rfl, hk⟩ := mem_numbered.mp hline
  have hle : (⟨k + 1, 1⟩ : Position) ≤ ⟨k + 1, length + 1⟩ := by simp
  have hstop := hasPosition_on hline hlength
  have hhead := slice_line hk (Nat.zero_le length) hlength
  rw [drop_zero, Nat.sub_zero] at hhead
  refine ⟨spells.start_lt.trans_le hle, hstart, hstop, ?_⟩
  simp only [Token.start, Token.stop, spells.text_eq]
  rw [between_eq_slice hstop, ← hhead,
    slice_append hstart (hasPosition_on hline (Nat.zero_le _)) spells.start_lt.le hle]

theorem Reached.accounts (h : Reached file lines tokens spot layout) :
    Accounts lines (visible tokens) layout spot := by
  induction h with
  | start => exact Account.empty lines
  | @void _ _ _ row h hline hfresh hvoid ih =>
    have hrest : row.drop row.leading.length = [] ∨ ∃ rest, row.drop row.leading.length =
        0x23 :: rest := by
      rw [Text.isVoid, ← row.drop_leading] at hvoid
      split at hvoid
      · next hempty => exact Or.inl hempty
      · next b rest hcons => exact Or.inr ⟨rest, by rw [hcons, beq_iff_eq.mp hvoid]⟩
    rw [Accounts, stands_none hfresh.pending] at ih ⊢
    exact account_stop hline (length_leading_le row) hrest (account_leading hline ih)
  | indent h hline hfresh hvoid hwidth ih =>
    rw [visible_concat_layout rfl]
    exact account_leading hline ((stands_none hfresh.pending).mp ih)
  | dedent h hline hfresh hvoid ih =>
    rw [visible_dedents]
    exact account_leading hline ((stands_none hfresh.pending).mp ih)
  | join h hline hpending ih => exact (stands_none hpending).mp ih
  | string h hline hpending ih =>
    obtain ⟨account, spells⟩ := (stands_some hpending).mp ih
    exact ⟨account, stays_open hline (h.sited.string _ hpending).1 spells⟩
  | close h hline hpending hclose ih =>
    obtain ⟨account, spells⟩ := (stands_some hpending).mp ih
    obtain ⟨hstart, hkind⟩ := h.sited.string _ hpending
    rw [visible_concat (by rcases hkind with hkind | hkind <;> simp [hkind, TokenKind.isLayout])]
    exact account.append (closes hline hstart spells (Lexeme.tripleClose?_le hclose) file)
  | @blank _ _ _ c _ b rest h hrest hb ih =>
    have hblank := Lexeme.ofBytes_describes b rest
    rw [hb] at hblank
    refine ih.blanks h.meets.1 (Nat.le_succ c) ?_
    simpa [hrest, Lexeme.Describes] using hblank
  | token h hrest hb ih =>
    obtain ⟨hroom, hkind⟩ := length_of_token hrest hb
    rw [visible_concat hkind]
    refine Account.append ?_ (spells_onLine h.meets.1 hrest hroom _ file)
    exact ih
  | stop h hrest ih =>
    exact (stands_none h.meets.2.2).mpr (account_stop h.meets.1 h.meets.2.1 hrest ih)
  | @backslash _ _ row c _ h hrest ih =>
    have hat : row[c]? = some 0x5C := by rw [← head?_drop, hrest]; rfl
    exact (stands_none h.meets.2.2).mpr
      ((ih.continuation h.meets.1 hat (length_of_drop hrest)).nextLine h.meets.1)
  | quote h hrest hb ih =>
    obtain ⟨k, rfl, hk⟩ := mem_numbered.mp h.meets.1
    refine ⟨ih, ?_, ?_⟩
    · simp [Position.lt_iff]
    · rw [slice_lineEnd hk h.meets.2.1, hrest]
  | newline h hfresh hopen ih =>
    rw [visible_concat_layout rfl]
    exact ih
  | goOn h hjoins ih => exact ih

end Layout

namespace Source

/-- The tokens of an accepted source give account of all its lines. The end token comes last, and it
is layout as well. -/
theorem account_of_stackedTokens {source : Source} (h : stackedTokens [source] = .ok tokens) :
    Account source.lines (visible tokens) ⟨source.lines.length + 1, 1⟩ ∧
      ∃ read, tokens = read ++ [source.endToken] ∧ Endless read := by
  obtain ⟨read, hread, hresult⟩ := exists_of_bind_eq_ok h
  cases hresult
  obtain ⟨found, layout, hcloses⟩ := exists_closes hread
  refine ⟨?_, read, rfl, fun t ht => (hcloses.sited t ht).2.2⟩
  rw [visible_concat_layout rfl, hcloses.tokens_eq, Layout.visible_dedents]
  exact (Layout.stands_none hcloses.fresh.pending).mp hcloses.reached.accounts

/-- The visible tokens of an accepted source have non-empty spans in ascending order that do not
overlap, each spells the source between its ends, and every byte outside of them separates tokens.
-/
theorem stackedTokens_lossless {source : Source} {tokens : List Token}
    (h : stackedTokens [source] = .ok tokens) :
    (∀ token ∈ visible tokens, token.start < token.stop ∧
      Lines.HasPosition source.lines token.start ∧ Lines.HasPosition source.lines token.stop ∧
      token.text = Lines.between source.lines token.start token.stop) ∧
    ((visible tokens).Pairwise fun a b => a.start < b.start ∧ a.stop ≤ b.start) ∧
    ∀ n row i, (n, row) ∈ Lines.numbered source.lines → i < row.length →
      ¬ Covered (visible tokens) ⟨n, i + 1⟩ → Separates (visible tokens) n row i := by
  obtain ⟨account, -⟩ := account_of_stackedTokens h
  refine ⟨fun token htoken => ?_, ?_,
    fun n row i hline hi hfree => account.separates le_rfl hline hi hfree⟩
  · obtain ⟨hlt, hstart, hstop, htext⟩ := account.spells token htoken
    exact ⟨hlt, hstart, hstop, htext⟩
  · refine account.ordered.imp_of_mem fun {a b} ha _ hle => ⟨?_, hle⟩
    exact (account.spells a ha).start_lt_stop.trans_le hle

/-- A string over two lines, a continuation and a comment. -/
def sample : Source := ⟨"f(\"\"\"a\nb\"\"\", \\\n 1) # c", []⟩

theorem stackedTokens_lossless_sample :
    ∃ tokens, stackedTokens [sample] = .ok tokens ∧ (visible tokens).length = 6 ∧
      ∀ token ∈ visible tokens, token.text = Lines.between sample.lines token.start token.stop := by
  have hlength : (stackedTokens [sample]).map (fun tokens => (visible tokens).length) = .ok 6 := by
    decide +kernel
  cases h : stackedTokens [sample] with
  | error e =>
    rw [h] at hlength
    cases hlength
  | ok tokens =>
    rw [h] at hlength
    obtain ⟨hspells, -, -⟩ := stackedTokens_lossless h
    exact ⟨tokens, rfl, Except.ok.inj hlength, fun token htoken => (hspells token htoken).2.2.2⟩

end Source

end NameInference

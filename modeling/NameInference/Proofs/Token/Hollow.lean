import Mathlib.Data.List.DropRight
import NameInference.Proofs.Token.Balance

/-!
# Hollow indentations

The width of a logical line is measured before its tokens are read, also if the line holds nothing
but a backslash and the lines that it is joined to turn out to be empty: the indentation that was
entered for it is then left without a token in between. Nothing else gives an indent that is
directly followed by a dedent.
-/

namespace NameInference

open List

/-- Nothing stands on the line but blanks and a backslash at its end. -/
def Text.isBare (line : Text) : Bool := line.dropWhile Lexeme.isBlank == [0x5C]

/-- What stands on a line stands behind any blanks of its beginning. -/
theorem Text.dropWhile_isBlank {line : Text} {c : Nat}
    (h : ∀ b ∈ line.take c, Lexeme.isBlank b = true) :
    line.dropWhile Lexeme.isBlank = (line.drop c).dropWhile Lexeme.isBlank := by
  conv_lhs => rw [← take_append_drop c line]
  exact dropWhile_append_of_pos h

namespace Lines

/-- From line `n` up to line `m` there are only backslashes. -/
def BareFrom (lines : List Text) (n m : Nat) : Prop :=
  n < m ∧ ∀ i, n ≤ i → i < m → ∃ line, (i, line) ∈ numbered lines ∧ line.isBare = true

/-- From line `n` on there are only backslashes, up to a line on which nothing stands. -/
def HollowFrom (lines : List Text) (n : Nat) : Prop :=
  ∃ m line, BareFrom lines n m ∧ (m, line) ∈ numbered lines ∧ line.isVoid = true

variable {lines : List Text} {n m : Nat} {line : Text}

theorem bareFrom_self (hline : (n, line) ∈ numbered lines) (hbare : line.isBare = true) :
    BareFrom lines n (n + 1) := by
  refine ⟨Nat.lt_succ_self n, fun i hle hlt => ⟨line, ?_, hbare⟩⟩
  obtain rfl : i = n := by omega
  exact hline

theorem BareFrom.succ (h : BareFrom lines n m) (hline : (m, line) ∈ numbered lines)
    (hbare : line.isBare = true) :
    BareFrom lines n (m + 1) := by
  obtain ⟨hnm, hall⟩ := h
  refine ⟨by omega, fun i hle hlt => ?_⟩
  rcases Nat.lt_succ_iff_lt_or_eq.mp hlt with hlt | rfl
  · exact hall i hle hlt
  · exact ⟨line, hline, hbare⟩

end Lines

namespace Layout

variable {file : Text} {lines : List Text} {tokens : List Token} {spot : Spot} {layout : Layout}
  {n m : Nat}

/-- A dedent comes directly behind an indent only if that was entered for a hollow line. -/
def LeavesHollow (lines : List Text) (before : List Token) (t : Token) : Prop :=
  t.kind = .dedent → ∀ indent ∈ before.getLast?, indent.kind = .indent →
    Lines.HollowFrom lines indent.start.line

/-- Between an indentation for line `n` and line `m` no token was given: a string is open, or there
have only been backslashes, or the indentation is hollow. -/
def Awaits (lines : List Text) (n m : Nat) (layout : Layout) : Prop :=
  layout.pending.isSome = true ∨ layout.continued = true ∧ Lines.BareFrom lines n m ∨
    Lines.HollowFrom lines n

/-- Between an indentation for line `n` and the spot no token was given. In a line there have only
been blanks. -/
def Enters (lines : List Text) (n : Nat) (layout : Layout) : Spot → Prop
  | .before m => Awaits lines n m layout
  | .within m row c => (∀ b ∈ row.take c, Lexeme.isBlank b = true) ∧
    (n = m ∧ row.isVoid = false ∨ Lines.BareFrom lines n m ∨ Lines.HollowFrom lines n)
  | .behind m _ => Awaits lines n (m + 1) layout

/-- Every indent that was directly left again was hollow, and an indent has just been entered only
if no token was given since. -/
structure Entered (lines : List Text) (tokens : List Token) (spot : Spot) (layout : Layout) :
    Prop where
  left : Each (LeavesHollow lines) tokens
  last : ∀ indent ∈ tokens.getLast?, indent.kind = .indent →
    Enters lines indent.start.line layout spot

/-- Where a line begins anew, an indent with nothing behind it is hollow. -/
theorem Awaits.hollow (h : Awaits lines n m layout) (hfresh : layout.IsFresh) :
    Lines.HollowFrom lines n := by
  simpa [Awaits, hfresh.pending, hfresh.continued] using h

/-- A token on the same level leaves nothing, and no indent has just been entered behind it. -/
theorem Entered.level (h : Entered lines tokens spot layout) {spot' : Spot} {layout' : Layout}
    {t : Token} (hindent : t.kind ≠ .indent) (hdedent : t.kind ≠ .dedent) :
    Entered lines (tokens ++ [t]) spot' layout' where
  left := h.left.concat fun hkind => absurd hkind hdedent
  last indent hlast hkind := by
    obtain rfl : t = indent := by simpa using hlast
    exact absurd hkind hindent

/-- Dedents leave a last indent only if it is hollow. -/
theorem leavesHollow_dedents (h : Each (LeavesHollow lines) tokens)
    (hlast : ∀ indent ∈ tokens.getLast?, indent.kind = .indent →
      Lines.HollowFrom lines indent.start.line)
    (p : Position) (left : List Nat) : Each (LeavesHollow lines) (tokens ++ dedents file p left) ∧
      ∀ indent ∈ (tokens ++ dedents file p left).getLast?, indent.kind = .indent →
        Lines.HollowFrom lines indent.start.line := by
  induction left generalizing tokens with
  | nil => simpa [dedents] using ⟨h, hlast⟩
  | cons top left ih =>
    have hnext : Each (LeavesHollow lines) (tokens ++ [mark file p .dedent "<DEDENT>"]) :=
      h.concat fun _ => hlast
    simpa [dedents] using ih hnext (by simp [mark])

theorem Reached.entered (h : Reached file lines tokens spot layout) :
    Entered lines tokens spot layout := by
  induction h with
  | start => exact ⟨Each.nil, by simp⟩
  | void h hline hfresh hvoid ih =>
    exact ⟨ih.left,
      fun indent hlast hindent => Or.inr (Or.inr ((ih.last indent hlast hindent).hollow hfresh))⟩
  | indent h hline hfresh hvoid hwidth ih =>
    refine ⟨ih.left.concat (by rintro ⟨⟩), fun indent hlast _ => ?_⟩
    obtain rfl := Option.some.inj (getLast?_concat.symm.trans hlast)
    refine ⟨fun b hb => ?_, Or.inl ⟨rfl, hvoid⟩⟩
    rw [← prefix_iff_eq_take.mp (List.takeWhile_prefix _)] at hb
    exact all_eq_true.mp all_takeWhile b hb
  | @dedent _ _ _ row h hline hfresh hvoid ih =>
    obtain ⟨hleft, hlast⟩ := leavesHollow_dedents ih.left
      (fun indent hlast hindent => (ih.last indent hlast hindent).hollow hfresh) _ _
    refine ⟨hleft,
      fun indent hindent hkind => ⟨fun b hb => ?_, Or.inr (Or.inr (hlast indent hindent hkind))⟩⟩
    rw [← prefix_iff_eq_take.mp (List.takeWhile_prefix _)] at hb
    exact all_eq_true.mp all_takeWhile b hb
  | join h hline hpending ih =>
    refine ⟨ih.left, fun indent hlast hindent => ⟨by simp, Or.inr ?_⟩⟩
    rcases ih.last indent hlast hindent with hstring | ⟨-, hbare⟩ | hhollow
    · simp [hpending] at hstring
    · exact Or.inl hbare
    · exact Or.inr hhollow
  | string h hline hpending ih => exact ⟨ih.left, fun _ _ _ => Or.inl rfl⟩
  | close h hline hpending hclose ih =>
    obtain ⟨-, hkind⟩ := h.sited.string _ hpending
    refine ih.level ?_ ?_ <;> rcases hkind with hkind | hkind <;> simp [hkind]
  | @blank _ _ row c _ b rest h hrest hb ih =>
    have hblank : Lexeme.isBlank b = true := by
      have hdescribed := Lexeme.ofBytes_describes b rest
      rw [hb] at hdescribed
      simpa [Lexeme.Describes, Lexeme.isBlank, or_assoc] using hdescribed
    refine ⟨ih.left, fun indent hlast hindent => ?_⟩
    obtain ⟨hblanks, hline⟩ := ih.last indent hlast hindent
    have hat : row[c]? = some b := by rw [← head?_drop, hrest]; rfl
    refine ⟨?_, hline⟩
    rw [take_add_one, hat]
    simpa [or_imp, forall_and, hblank] using hblanks
  | token h hrest hb ih =>
    have hvisible := (length_of_token hrest hb).2
    exact ih.level (TokenKind.ne_of_isLayout hvisible rfl) (TokenKind.ne_of_isLayout hvisible rfl)
  | @stop _ _ row _ _ h hrest ih =>
    refine ⟨ih.left, fun indent hlast hindent => Or.inr (Or.inr ?_)⟩
    obtain ⟨hblanks, hline⟩ := ih.last indent hlast hindent
    have hvoid : row.isVoid = true := by
      rw [Text.isVoid, Text.dropWhile_isBlank hblanks]
      rcases hrest with hrest | ⟨rest, hrest⟩ <;> rw [hrest] <;> rfl
    rcases hline with ⟨-, hfull⟩ | hbare | hhollow
    · cases hvoid.symm.trans hfull
    · exact ⟨_, _, hbare, h.meets.1, hvoid⟩
    · exact hhollow
  | @backslash _ _ row _ _ h hrest ih =>
    refine ⟨ih.left, fun indent hlast hindent => ?_⟩
    obtain ⟨hblanks, hline⟩ := ih.last indent hlast hindent
    have hbare : row.isBare = true := by
      rw [Text.isBare, Text.dropWhile_isBlank hblanks, hrest]
      rfl
    rcases hline with ⟨hself, -⟩ | hbares | hhollow
    · exact Or.inr (Or.inl ⟨rfl, by rw [hself]; exact Lines.bareFrom_self h.meets.1 hbare⟩)
    · exact Or.inr (Or.inl ⟨rfl, hbares.succ h.meets.1 hbare⟩)
    · exact Or.inr (Or.inr hhollow)
  | quote h hrest hb ih => exact ⟨ih.left, fun _ _ _ => Or.inl rfl⟩
  | newline h hfresh hopen ih => exact ih.level (by rintro ⟨⟩) (by rintro ⟨⟩)
  | goOn h hjoins ih => exact ⟨ih.left, ih.last⟩

end Layout

/-- An indent of an accepted source that is directly followed by a dedent was entered for a hollow
line. -/
theorem Source.hollow_of_stackedTokens {source : Source} {tokens before after : List Token}
    {indent dedent : Token} (h : stackedTokens [source] = .ok tokens)
    (hsplit : tokens = before ++ indent :: dedent :: after) (hindent : indent.kind = .indent)
    (hdedent : dedent.kind = .dedent) :
    Lines.HollowFrom source.lines indent.start.line := by
  obtain ⟨read, hread, hresult⟩ := exists_of_bind_eq_ok h
  cases hresult
  obtain ⟨found, layout, hcloses⟩ := exists_closes hread
  have hentered := hcloses.reached.entered
  have hleft : Each (Layout.LeavesHollow source.lines) read := by
    rw [hcloses.tokens_eq]
    exact (Layout.leavesHollow_dedents hentered.left
      (fun indent hlast hkind => (hentered.last indent hlast hkind).hollow hcloses.fresh) _ _).1
  have hall : Each (Layout.LeavesHollow source.lines) (read ++ [source.endToken]) :=
    hleft.concat nofun
  exact hall (before ++ [indent]) dedent after (by simpa using hsplit) hdedent indent
    (by simp) hindent

end NameInference

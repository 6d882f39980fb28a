import NameInference.Proofs.Text.Between

/-!
# Accounts of a text

An account of the lines up to a position says what became of every byte before it: the byte lies in
a token whose text is the text of its span, or it separates tokens. Accounts grow at their frontier:
by a token that begins there, by blanks, by the rest of a line behind a number sign or a last
backslash, and by the end of a line.
-/

namespace NameInference

open List Position

/-- One of the tokens covers the position. -/
def Covered (tokens : List Token) (p : Position) : Prop := ∃ token ∈ tokens, token.span.Covers p

/-- The byte `i` of line `n` is a blank, a tab or a form feed, it belongs to a comment that runs
from a number sign to the end of the line, or it is a backslash that ends the line. -/
inductive Separates (tokens : List Token) (n : Nat) (row : Text) (i : Nat) : Prop where
  | blank (b : UInt8) (at_i : row[i]? = some b) (isBlank : b ∈ [0x20, 0x09, 0x0C])
  | comment (j : Nat) (le : j ≤ i) (at_j : row[j]? = some 0x23)
      (free : ∀ k, j ≤ k → k < row.length → ¬ Covered tokens ⟨n, k + 1⟩)
  | continuation (at_i : row[i]? = some 0x5C) (last : i + 1 = row.length)

/-- A token whose span is not empty, lies within the lines and holds the token's text. -/
structure Token.Spells (lines : List Text) (token : Token) : Prop where
  start_lt_stop : token.start < token.stop
  hasStart : Lines.HasPosition lines token.start
  hasStop : Lines.HasPosition lines token.stop
  text_eq : token.text = Lines.between lines token.start token.stop

/-- Every byte before the frontier lies in one of the tokens or separates them. -/
structure Account (lines : List Text) (tokens : List Token) (frontier : Position) : Prop where
  spells : ∀ token ∈ tokens, token.Spells lines
  stop_le : ∀ token ∈ tokens, token.stop ≤ frontier
  ordered : tokens.Pairwise fun a b => a.stop ≤ b.start
  /-- A byte that is no blank is decided together with the rest of its line. -/
  rest : ∀ n row i, (n, row) ∈ Lines.numbered lines → i < row.length → ⟨n, i + 1⟩ < frontier →
    Covered tokens ⟨n, i + 1⟩ ∨ (∃ b, row[i]? = some b ∧ b ∈ [0x20, 0x09, 0x0C]) ∨
      Separates tokens n row i ∧ ⟨n, row.length + 1⟩ ≤ frontier

namespace Account

variable {lines : List Text} {tokens : List Token} {n : Nat} {row : Text}

/-- Nothing stands before the first position. -/
theorem empty (lines : List Text) : Account lines [] ⟨1, 1⟩ where
  spells := by simp
  stop_le := by simp
  ordered := List.Pairwise.nil
  rest n row i hline _ hlt := by
    obtain ⟨k, rfl, -⟩ := Lines.mem_numbered.mp hline
    rw [lt_iff] at hlt
    simp only at hlt
    omega

/-- The frontier moves on to `q` once the bytes in between are accounted for. -/
theorem advance {p q : Position} (account : Account lines tokens p) (hpq : p ≤ q)
    (hrest : ∀ n row i, (n, row) ∈ Lines.numbered lines → i < row.length → p ≤ ⟨n, i + 1⟩ →
      ⟨n, i + 1⟩ < q → (∃ b, row[i]? = some b ∧ b ∈ [0x20, 0x09, 0x0C]) ∨
      Separates tokens n row i ∧ ⟨n, row.length + 1⟩ ≤ q) :
    Account lines tokens q where
  spells := account.spells
  stop_le token htoken := (account.stop_le token htoken).trans hpq
  ordered := account.ordered
  rest n row i hline hi hlt := by
    rcases lt_or_ge ⟨n, i + 1⟩ p with hbefore | hbehind
    · rcases account.rest n row i hline hi hbefore with hcovered | hblank | ⟨hsep, hend⟩
      · exact Or.inl hcovered
      · exact Or.inr (Or.inl hblank)
      · exact Or.inr (Or.inr ⟨hsep, hend.trans hpq⟩)
    · exact Or.inr (hrest n row i hline hi hbehind hlt)

/-- The frontier moves on within a line. -/
theorem advanceOn {c d : Nat} (account : Account lines tokens ⟨n, c + 1⟩)
    (hline : (n, row) ∈ Lines.numbered lines)
    (hcd : c ≤ d) (hrest : ∀ i, c ≤ i → i < d → i < row.length →
      (∃ b, row[i]? = some b ∧ b ∈ [0x20, 0x09, 0x0C]) ∨ Separates tokens n row i ∧
    row.length ≤ d) : Account lines tokens ⟨n, d + 1⟩ := by
  refine account.advance (by simpa using hcd) fun m other i hother hi hle hlt => ?_
  obtain rfl : m = n := by
    rw [le_iff] at hle
    rw [lt_iff] at hlt
    simp only at hle hlt
    omega
  obtain rfl : other = row := Lines.numbered_unique hother hline
  rw [mk_le_mk_same] at hle ⊢
  rw [mk_lt_mk_same] at hlt
  simpa only [Nat.add_le_add_iff_right] using hrest i (by omega) (by omega) hi

/-- Blanks move the frontier on. -/
theorem blanks {c d : Nat} (account : Account lines tokens ⟨n, c + 1⟩)
    (hline : (n, row) ∈ Lines.numbered lines) (hcd : c ≤ d)
    (hblank : ∀ b ∈ (row.drop c).take (d - c), b ∈ [0x20, 0x09, 0x0C]) :
    Account lines tokens ⟨n, d + 1⟩ := by
  refine account.advanceOn hline hcd fun i hc hd hi => Or.inl ⟨row[i], getElem?_eq_getElem hi, ?_⟩
  apply hblank
  rw [mem_iff_getElem?]
  refine ⟨i - c, ?_⟩
  rw [getElem?_take_of_lt (by omega), getElem?_drop, Nat.add_sub_of_le hc, getElem?_eq_getElem hi]

/-- No token covers a position from the frontier on. -/
theorem not_covered {p q : Position} (account : Account lines tokens p) (hpq : p ≤ q) :
    ¬ Covered tokens q := by
  rintro ⟨token, htoken, -, hlt⟩
  exact absurd hlt (not_lt.mpr ((account.stop_le token htoken).trans hpq))

/-- A number sign takes the rest of its line. -/
theorem comment {c : Nat} (account : Account lines tokens ⟨n, c + 1⟩)
    (hline : (n, row) ∈ Lines.numbered lines) (hc : row[c]? = some 0x23) :
    Account lines tokens ⟨n, row.length + 1⟩ := by
  have hlt : c < row.length := (List.getElem?_eq_some_iff.mp hc).1
  refine account.advanceOn hline hlt.le fun i hci _ hi =>
    Or.inr ⟨.comment c hci hc fun k hck _ => ?_, le_rfl⟩
  exact account.not_covered (by simpa using hck)

/-- A backslash at the end of its line separates tokens. -/
theorem continuation {c : Nat} (account : Account lines tokens ⟨n, c + 1⟩)
    (hline : (n, row) ∈ Lines.numbered lines) (hc : row[c]? = some 0x5C)
    (hlast : c + 1 = row.length) :
    Account lines tokens ⟨n, row.length + 1⟩ := by
  refine account.advanceOn hline (by omega) fun i hci hi _ => Or.inr ⟨?_, le_rfl⟩
  obtain rfl : i = c := by omega
  exact .continuation hc hlast

/-- The end of a line is the beginning of the next. -/
theorem nextLine (account : Account lines tokens ⟨n, row.length + 1⟩)
    (hline : (n, row) ∈ Lines.numbered lines) :
    Account lines tokens ⟨n + 1, 1⟩ := by
  refine account.advance (by simp [le_iff]) fun m other i hother hi hle hlt => ?_
  rw [le_iff] at hle
  rw [lt_iff] at hlt
  simp only at hle hlt
  obtain rfl : m = n := by omega
  obtain rfl : other = row := Lines.numbered_unique hother hline
  omega

/-- A token that begins at the frontier moves it to the token's end. -/
theorem append {token : Token} (account : Account lines tokens token.start)
    (h : token.Spells lines) :
    Account lines (tokens ++ [token]) token.stop where
  spells other hother := by
    rcases mem_append.mp hother with hold | hnew
    · exact account.spells other hold
    · rwa [mem_singleton.mp hnew]
  stop_le other hother := by
    rcases mem_append.mp hother with hold | hnew
    · exact (account.stop_le other hold).trans h.start_lt_stop.le
    · rw [mem_singleton.mp hnew]
  ordered := by
    refine pairwise_append.mpr ⟨account.ordered, pairwise_singleton _ _, fun a ha b hb => ?_⟩
    rw [mem_singleton.mp hb]
    exact account.stop_le a ha
  rest n row i hline hi hlt := by
    have hmono : ∀ p, Covered tokens p → Covered (tokens ++ [token]) p :=
        fun p ⟨other, hother, hcovers⟩ =>
      ⟨other, mem_append_left _ hother, hcovers⟩
    rcases lt_or_ge ⟨n, i + 1⟩ token.start with hbefore | hbehind
    · rcases account.rest n row i hline hi hbefore with hcovered | hblank | ⟨hsep, hend⟩
      · exact Or.inl (hmono _ hcovered)
      · exact Or.inr (Or.inl hblank)
      · refine Or.inr (Or.inr ⟨?_, hend.trans h.start_lt_stop.le⟩)
        cases hsep with
        | blank b hb hblank => exact .blank b hb hblank
        | continuation hc hlast => exact .continuation hc hlast
        | comment j hj hc hfree =>
          -- The line of the comment ends before the new token begins.
          refine .comment j hj hc fun k hjk hk => ?_
          rintro ⟨other, hother, hcovers⟩
          rcases mem_append.mp hother with hold | hnew
          · exact hfree k hjk hk ⟨other, hold, hcovers⟩
          · rw [mem_singleton.mp hnew] at hcovers
            have hk' : (⟨n, k + 1⟩ : Position) < ⟨n, row.length + 1⟩ := by simpa using hk
            exact absurd hcovers.1 (not_le.mpr (hk'.trans_le hend))
    · exact Or.inl ⟨token, mem_append_right _ (mem_singleton_self token), hbehind, hlt⟩

/-- Once every line is read, a byte outside the tokens separates them. -/
theorem separates {p : Position} (account : Account lines tokens p) (hp : ⟨lines.length + 1, 1⟩ ≤ p)
    {i : Nat} (hline : (n, row) ∈ Lines.numbered lines) (hi : i < row.length)
    (hfree : ¬ Covered tokens ⟨n, i + 1⟩) :
    Separates tokens n row i := by
  have hlt : (⟨n, i + 1⟩ : Position) < ⟨lines.length + 1, 1⟩ := by
    obtain ⟨k, rfl, hk⟩ := Lines.mem_numbered.mp hline
    have hlen : k < lines.length := (List.getElem?_eq_some_iff.mp hk).1
    exact lt_iff.mpr (Or.inl (by simpa using hlen))
  rcases account.rest n row i hline hi (hlt.trans_le hp) with hcovered | ⟨b, hb, hblank⟩ | ⟨hsep, -⟩
  · exact absurd hcovered hfree
  · exact .blank b hb hblank
  · exact hsep

end Account

end NameInference

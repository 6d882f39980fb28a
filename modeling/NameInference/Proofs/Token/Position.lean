import Mathlib.Data.Prod.Lex
import NameInference.Token

/-!
# The order of positions

Positions are ordered by line first and by column within a line. The order is linear, so half-open
spans are compared by their endpoints alone, and the two Boolean tests of source order decide it.
-/

namespace NameInference

variable {p q : Position}

namespace Position

/-- Line and column as a pair that is compared from the left. -/
def key (p : Position) : ℕ ×ₗ ℕ := toLex (p.line, p.col)

theorem key_injective : Function.Injective key := by
  rintro ⟨line, col⟩ ⟨line', col'⟩ h
  simpa [key] using h

instance : LinearOrder Position := LinearOrder.lift' key key_injective

theorem lt_iff : p < q ↔ p.line < q.line ∨ p.line = q.line ∧ p.col < q.col :=
  Prod.Lex.toLex_lt_toLex

theorem le_iff : p ≤ q ↔ p.line < q.line ∨ p.line = q.line ∧ p.col ≤ q.col :=
  Prod.Lex.toLex_le_toLex

/-- The strict test of source order decides the order. -/
theorem before_iff : p.before q = true ↔ p < q := by
  simp [before, lt_iff]

/-- The weak test of source order decides the order. -/
theorem upTo_iff : p.upTo q = true ↔ p ≤ q := by
  simp [upTo, ← not_lt, ← before_iff]

/-- Within one line the columns decide. -/
@[simp] theorem mk_lt_mk_same {line col col' : Nat} :
    (⟨line, col⟩ : Position) < ⟨line, col'⟩ ↔ col < col' := by
  simp [lt_iff]

@[simp] theorem mk_le_mk_same {line col col' : Nat} :
    (⟨line, col⟩ : Position) ≤ ⟨line, col'⟩ ↔ col ≤ col' := by
  simp [le_iff]

end Position

/-- A half-open span holds its start and not its stop. -/
def Span.Covers (s : Span) (p : Position) : Prop := s.start ≤ p ∧ p < s.stop

end NameInference

import Mathlib.Data.List.Basic
import NameInference.Text.Lines
import NameInference.Proofs.Token.Position

/-!
# Text between two positions

A position is an offset into the lines joined by line feeds, and the text between two positions is
the slice between their offsets. Slices are computed line by line on the terminated text, in which
every line, the last one too, is followed by a line feed.
-/

namespace NameInference.Lines

open List

variable {lines : List Text} {line : Text}

/-- Every line followed by a line feed. -/
def terminated (lines : List Text) : Text := lines.flatMap fun line => line ++ [0x0A]

/-- How many bytes of the joined lines stand before a position. -/
def offset (lines : List Text) (p : Position) : Nat :=
  (terminated (lines.take (p.line - 1))).length + (p.col - 1)

/-- The source between two positions, physical lines joined by line feeds. -/
def between (lines : List Text) (p q : Position) : Text :=
  (Text.joined [0x0A] lines).extract (offset lines p) (offset lines q)

/-- A position of a line: at one of its bytes, or right behind the last. -/
def HasPosition (lines : List Text) (p : Position) : Prop :=
  ∃ line, (p.line, line) ∈ numbered lines ∧ 1 ≤ p.col ∧ p.col ≤ line.length + 1

theorem mem_numbered {n : Nat} :
    (n, line) ∈ numbered lines ↔ ∃ k, n = k + 1 ∧ lines[k]? = some line := by
  simp only [numbered, mem_mapIdx, Prod.mk.injEq]
  constructor
  · rintro ⟨k, hk, rfl, rfl⟩
    exact ⟨k, rfl, getElem?_eq_getElem hk⟩
  · rintro ⟨k, rfl, hk⟩
    obtain ⟨h, rfl⟩ := List.getElem?_eq_some_iff.mp hk
    exact ⟨k, h, rfl, rfl⟩

/-- A number belongs to one line. -/
theorem numbered_unique {n : Nat} {line other : Text} (h : (n, line) ∈ numbered lines)
    (h' : (n, other) ∈ numbered lines) : line = other := by
  obtain ⟨k, rfl, hk⟩ := mem_numbered.mp h
  obtain ⟨k', hk', hother⟩ := mem_numbered.mp h'
  obtain rfl : k = k' := Nat.succ.inj hk'
  exact Option.some.inj (hk.symm.trans hother)

theorem terminated_append (lines more : List Text) :
    terminated (lines ++ more) = terminated lines ++ terminated more :=
  flatMap_append

theorem terminated_eq_joined (h : lines ≠ []) :
    terminated lines = Text.joined [0x0A] lines ++ [0x0A] := by
  induction lines with
  | nil => exact absurd rfl h
  | cons line rest ih =>
    cases rest with
    | nil => simp [terminated, Text.joined]
    | cons next rest =>
      have hnext := ih (cons_ne_nil next rest)
      simp only [terminated, Text.joined, flatMap_cons, intersperse_cons_cons,
        flatten_cons] at hnext ⊢
      rw [hnext]
      simp

theorem take_succ_of_getElem? {k : Nat} (h : lines[k]? = some line) :
    lines.take (k + 1) = lines.take k ++ [line] := by
  rw [take_add_one, h]
  rfl

theorem offset_col (lines : List Text) (n i : Nat) :
    offset lines ⟨n, i + 1⟩ = offset lines ⟨n, 1⟩ + i := by
  simp [offset]

theorem offset_nextLine {k : Nat} (h : lines[k]? = some line) :
    offset lines ⟨k + 2, 1⟩ = offset lines ⟨k + 1, 1⟩ + (line.length + 1) := by
  simp [offset, take_succ_of_getElem? h, terminated]

/-- What stands from a position of a line on. -/
theorem drop_terminated {k i : Nat} (h : lines[k]? = some line)
    (hi : i ≤ line.length) :
    (terminated lines).drop (offset lines ⟨k + 1, i + 1⟩) =
      line.drop i ++ 0x0A :: terminated (lines.drop (k + 1)) := by
  have hsplit : terminated lines =
      terminated (lines.take k) ++ (line ++ 0x0A :: terminated (lines.drop (k + 1))) := by
    conv_lhs => rw [← take_append_drop (k + 1) lines, take_succ_of_getElem? h]
    simp [terminated]
  rw [hsplit, offset, Nat.add_sub_cancel, Nat.add_sub_cancel, drop_length_add_append,
    drop_append_of_le_length hi]

/-- Positions keep their order as offsets. -/
theorem offset_le_offset {p q : Position} (hp : HasPosition lines p) (h : p ≤ q) :
    offset lines p ≤ offset lines q := by
  obtain ⟨line, hmem, hcol, hend⟩ := hp
  obtain ⟨k, hk, hline⟩ := mem_numbered.mp hmem
  rcases Position.le_iff.mp h with hlt | ⟨heq, hle⟩
  · have hsub : k + 1 ≤ q.line - 1 := by omega
    have hlen : (terminated (lines.take (k + 1))).length ≤
        (terminated (lines.take (q.line - 1))).length := by
      rw [← Nat.add_sub_of_le hsub, take_add (i := k + 1), terminated_append, length_append]
      exact Nat.le_add_right _ _
    rw [take_succ_of_getElem? hline, terminated_append] at hlen
    simp only [terminated, length_append, flatMap_cons, flatMap_nil, length_cons,
      length_nil] at hlen
    simp only [offset, terminated, hk, Nat.add_sub_cancel]
    omega
  · simp only [offset, heq]
    omega

/-- The slice of the terminated text between two positions. -/
def slice (lines : List Text) (p q : Position) : Text :=
  (terminated lines).extract (offset lines p) (offset lines q)

/-- Up to a position of a line the terminated text and the joined one agree. -/
theorem between_eq_slice {p q : Position} (hq : HasPosition lines q) :
    between lines p q = slice lines p q := by
  obtain ⟨line, hmem, hcol, hend⟩ := hq
  obtain ⟨k, hk, hline⟩ := mem_numbered.mp hmem
  have hne : lines ≠ [] := by
    rintro rfl
    simp at hline
  have hrest := congrArg List.length (drop_terminated hline (show q.col - 1 ≤ line.length by omega))
  have hpos : (⟨k + 1, q.col - 1 + 1⟩ : Position) = q := by
    rw [Nat.sub_add_cancel hcol, ← hk]
  rw [hpos, terminated_eq_joined hne] at hrest
  simp only [length_drop, length_append, length_cons, length_nil] at hrest
  have hle : offset lines q - offset lines p ≤
      ((Text.joined [0x0A] lines).drop (offset lines p)).length := by
    rw [length_drop]
    omega
  simp only [between, slice, extract_eq_take_drop, terminated_eq_joined hne]
  rcases Nat.le_total (offset lines p) (offset lines q) with hpq | hqp
  · rw [drop_append_of_le_length (by omega), take_append_of_le_length hle]
  · simp [Nat.sub_eq_zero_of_le hqp]

/-- Adjacent slices make one slice. -/
theorem slice_append {p q r : Position} (hp : HasPosition lines p) (hq : HasPosition lines q)
    (hpq : p ≤ q) (hqr : q ≤ r) : slice lines p q ++ slice lines q r = slice lines p r := by
  have h₁ := offset_le_offset hp hpq
  have h₂ := offset_le_offset hq hqr
  simp only [slice, extract_eq_take_drop]
  rw [show offset lines r - offset lines p =
    (offset lines q - offset lines p) + (offset lines r - offset lines q) by
    omega, take_add, drop_drop, Nat.add_sub_of_le h₁]

/-- A slice within one line. -/
theorem slice_line {k i j : Nat} (h : lines[k]? = some line) (hij : i ≤ j) (hj : j ≤ line.length) :
    slice lines ⟨k + 1, i + 1⟩ ⟨k + 1, j + 1⟩ = (line.drop i).take (j - i) := by
  have hlen : j - i ≤ (line.drop i).length := by
    rw [length_drop]
    omega
  rw [slice, extract_eq_take_drop, drop_terminated h (hij.trans hj), offset_col lines _ j,
    offset_col lines _ i, Nat.add_sub_add_left, take_append_of_le_length hlen]

/-- A slice from a position of a line to the beginning of the next holds the line feed. -/
theorem slice_lineEnd {k i : Nat} (h : lines[k]? = some line)
    (hi : i ≤ line.length) : slice lines ⟨k + 1, i + 1⟩ ⟨k + 2, 1⟩ = line.drop i ++ [0x0A] := by
  have hlen : offset lines ⟨k + 2, 1⟩ - offset lines ⟨k + 1, i + 1⟩ = (line.drop i).length + 1 := by
    rw [offset_nextLine h, offset_col lines _ i, length_drop]
    omega
  rw [slice, extract_eq_take_drop, drop_terminated h hi, hlen, take_length_add_append]
  rfl

end NameInference.Lines

import NameInference.Text

/-!
# Physical lines

A line ends at LF, at CR LF or at a lone CR; the terminator belongs to no line. A leading byte order
mark is dropped, and a terminated last line is not followed by an empty one.
-/

namespace NameInference.Lines

/-- The three bytes that some writers put in front of UTF-8 text. -/
def byteOrderMark : Text := [0xEF, 0xBB, 0xBF]

/-- The text without a leading byte order mark. -/
def withoutMark (t : Text) : Text := if t.startsWith byteOrderMark then t.drop 3 else t

/-- The pieces between line terminators, without an empty last piece. -/
def split : Text → List Text
  | [] => []
  | 0x0A :: rest => [] :: split rest
  | 0x0D :: 0x0A :: rest => [] :: split rest
  | 0x0D :: rest => [] :: split rest
  | b :: rest =>
    match split rest with
    | [] => [[b]]
    | line :: lines => (b :: line) :: lines

/-- The physical lines of a source text. -/
def ofText (t : Text) : List Text := split (withoutMark t)

/-- Lines with their numbers, counted from one. -/
def numbered (lines : List Text) : List (Nat × Text) := lines.mapIdx fun i line => (i + 1, line)

end NameInference.Lines

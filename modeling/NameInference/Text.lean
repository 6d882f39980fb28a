/-!
# Byte text

Source text, names and paths are sequences of bytes. No encoding is assumed: columns count bytes,
order is the order of unsigned bytes, and a text that is no valid UTF-8 is as good as any other.
-/

namespace NameInference

/-- A text is its bytes. -/
abbrev Text := List UInt8

namespace Text

/-- The UTF-8 bytes of a string. -/
def ofString (s : String) : Text := s.toUTF8.toList

instance : Coe String Text := ⟨ofString⟩

/-- The decimal digits of a number, without leading zeros. -/
def ofNat (n : Nat) : Text := ofString (toString n)

/-- The decimal digits of an integer, with a minus sign below zero. -/
def ofInt (n : Int) : Text := ofString (toString n)

/-- Whether `t` begins with `s`. -/
def startsWith (t s : Text) : Bool := s.isPrefixOf t

/-- Whether `t` ends with `s`. -/
def endsWith (t s : Text) : Bool := s.isSuffixOf t

/-- `t` without its last `n` bytes. -/
def dropEnd (t : Text) (n : Nat) : Text := t.take (t.length - n)

/-- `n` blanks. -/
def blanks (n : Nat) : Text := List.replicate n 0x20

/-- The texts with `separator` between each two of them. -/
def joined (separator : Text) (texts : List Text) : Text := (texts.intersperse separator).flatten

/-- Names joined by dots; a name is preceded by a dot only if something stands before it. -/
def dotted (names : List Text) : Text :=
  names.foldl (fun out name => (if out.isEmpty then out else out ++ [0x2E]) ++ name) []

/-- The bytes before the first zero byte. -/
def untilZero (t : Text) : Text := t.takeWhile (· != 0)

/-- Lexicographic order of the bytes. -/
def le (a b : Text) : Bool := decide (a ≤ b)

/-- Ascending order, duplicates kept. -/
def sort (texts : List Text) : List Text := texts.mergeSort le

/-- The pieces between occurrences of `separator`; an empty text has one empty piece. -/
def splitOn (separator : UInt8) : Text → List Text
  | [] => [[]]
  | b :: rest =>
    match splitOn separator rest with
    | [] => [[b]]
    | piece :: pieces => if b == separator then [] :: piece :: pieces else (b :: piece) :: pieces

/-- The part before and the part after the last occurrence of `separator`. -/
def cutLast? (separator : UInt8) (t : Text) : Option (Text × Text) :=
  let tail := t.reverse.takeWhile (· != separator)
  if tail.length < t.length then
    some (t.take (t.length - tail.length - 1), tail.reverse)
  else none

/-- The part before and the part after the first occurrence of `separator`. -/
def cutFirst? (separator : UInt8) (t : Text) : Option (Text × Text) :=
  match t.dropWhile (· != separator) with
  | [] => none
  | _ :: rest => some (t.takeWhile (· != separator), rest)

end Text

namespace Byte

/-- A decimal digit. -/
def isDigit (b : UInt8) : Bool := 0x30 ≤ b && b ≤ 0x39

/-- A hexadecimal digit of either case. -/
def isHexDigit (b : UInt8) : Bool := isDigit b || (0x41 ≤ b && b ≤ 0x46) || (0x61 ≤ b && b ≤ 0x66)

/-- An ASCII letter. -/
def isLetter (b : UInt8) : Bool := (0x41 ≤ b && b ≤ 0x5A) || (0x61 ≤ b && b ≤ 0x7A)

/-- The value of a hexadecimal digit. -/
def hexValue (b : UInt8) : UInt8 :=
  if isDigit b then b - 0x30 else if b ≤ 0x46 then b - 0x37 else b - 0x57

/-- ASCII letters in lower case, every other byte as it is. -/
def toLower (b : UInt8) : UInt8 := if 0x41 ≤ b && b ≤ 0x5A then b + 0x20 else b

/-- The byte of an ASCII character. -/
def ofChar (c : Char) : UInt8 := c.toNat.toUInt8

end Byte

end NameInference

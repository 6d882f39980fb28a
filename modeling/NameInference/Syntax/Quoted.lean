import NameInference.Text

/-!
# Quoted literals

The value of a string or bytes literal: the letters before the quote say how it is read, three
quotes delimit it like one, and escapes are decoded unless the literal is raw.
-/

namespace NameInference.Quoted

/-- Either quote character. -/
def isQuote (b : UInt8) : Bool := b == 0x27 || b == 0x22

/-- The letters before the opening quote. -/
def letters (literal : Text) : Text := literal.takeWhile (!isQuote ·)

/-- A letter `f` of either case before the quote. -/
def isFormatted (literal : Text) : Bool := (letters literal).any (Byte.toLower · == 0x66)

/-- A letter `r` of either case before the quote. -/
def isRaw (literal : Text) : Bool := (letters literal).any (Byte.toLower · == 0x72)

/-- The number of quotes on each side of a text that begins with a quote. -/
def quoteWidth (quoted : Text) : Nat :=
  if 6 ≤ quoted.length && (quoted.take 3).all (some · == quoted.head?) then 3 else 1

/-- What stands between the quotes; nothing if there are no two of them. -/
def inside (literal : Text) : Text :=
  let quoted := literal.dropWhile (!isQuote ·)
  let width := quoteWidth quoted
  (quoted.take (quoted.length - width)).drop width

/-- The byte that a one-letter escape stands for. -/
def simpleEscape? (b : UInt8) : Option UInt8 :=
  if b == 0x6E then some 0x0A
  else if b == 0x74 then some 0x09
  else if b == 0x72 then some 0x0D
  else if b == 0x30 then some 0x00
  else if b == 0x61 then some 0x07
  else if b == 0x62 then some 0x08
  else if b == 0x66 then some 0x0C
  else if b == 0x76 then some 0x0B
  else if b == 0x5C || isQuote b then some b
  else none

/-- The byte that two hexadecimal digits stand for. -/
def hexByte? (high low : UInt8) : Option UInt8 :=
  if Byte.isHexDigit high && Byte.isHexDigit low then
    some (Byte.hexValue high * 16 + Byte.hexValue low)
  else none

/-- Decodes escapes. An escaped line break stands for nothing, two hexadecimal digits after `x` for
their byte, and a backslash that begins no escape for itself. -/
def unescape : Text → Text
  | [] => []
  | [b] => [b]
  | b :: e :: rest =>
    if b != 0x5C then b :: unescape (e :: rest)
    else if e == 0x0A then unescape rest
    else match simpleEscape? e, rest with
      | some decoded, rest => decoded :: unescape rest
      | none, high :: low :: more =>
        match if e == 0x78 then hexByte? high low else none with
        | some decoded => decoded :: unescape more
        | none => b :: e :: unescape (high :: low :: more)
      | none, rest => b :: e :: unescape rest

/-- The bytes that a literal denotes. -/
def value (literal : Text) : Text :=
  if isRaw literal then inside literal else unescape (inside literal)

end NameInference.Quoted

import NameInference.Text

/-!
# Numeric literals

Literals keep their source text. Whether a number is zero, its negation and the integer it denotes
are read off that text.
-/

namespace NameInference.Number

/-- The text of the negated number. -/
def negated (text : Text) : Text :=
  match text with
  | 0x2D :: rest => rest
  | _ => 0x2D :: text

/-- Whether the literal denotes a number other than zero. A sign and the suffix of an imaginary
number do not count; an exponent does not either. -/
def isNonzero (text : Text) : Bool :=
  let unsigned := match text with
    | 0x2D :: rest | 0x2B :: rest => rest
    | _ => text
  let real := match unsigned.getLast? with
    | some 0x6A | some 0x4A => unsigned.dropLast
    | _ => unsigned
  match real with
  | 0x30 :: base :: digit :: digits =>
    if [0x78, 0x58, 0x6F, 0x4F, 0x62, 0x42].contains base then
      (digit :: digits).any fun b => b != 0x30 && b != 0x5F
    else mantissaIsNonzero real
  | _ => mantissaIsNonzero real
where
  /-- Whether a digit before the exponent is not zero. -/
  mantissaIsNonzero (text : Text) : Bool :=
    (text.takeWhile fun b => b != 0x65 && b != 0x45).any fun b => 0x31 ≤ b && b ≤ 0x39

/-- The integer that a text of decimal digits with an optional minus sign denotes, if it fits in 64
bits. -/
def index? (text : Text) : Option Int :=
  let (negative, digits) := match text with
    | 0x2D :: rest => (true, rest)
    | _ => (false, text)
  if digits.isEmpty || !digits.all Byte.isDigit then none
  else
    let magnitude : Nat := digits.foldl (fun n d => n * 10 + (d - 0x30).toNat) 0
    let value : Int := if negative then -magnitude else magnitude
    if -9223372036854775808 ≤ value && value < 9223372036854775808 then some value else none

end NameInference.Number

/-!
# Decimal digits

The number that a row of decimal digits stands for. Leading zeros count for
nothing.
-/

namespace ElmCodec

def digitValue (c : Char) : Nat := c.toNat - '0'.toNat

namespace Text

def natOfDigits (digits : List Char) : Nat :=
  digits.foldl (fun value digit => 10 * value + digitValue digit) 0

end Text

end ElmCodec

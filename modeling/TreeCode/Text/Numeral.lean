/-!
# Numerals

Decimals padded with zeros on the left, and hexadecimals in lower case.
-/

namespace TreeCode.Text

/-- A text widened to `width` characters with zeros on the left. -/
def zeroPad (width : Nat) (s : String) : String :=
  String.ofList (List.replicate (width - s.length) '0') ++ s

def decimal (width n : Nat) : String := zeroPad width (Nat.repr n)

/-- The hexadecimal digits of a number, in lower case. -/
def hex (n : Nat) : String := String.ofList (Nat.toDigits 16 n)

def hexByte (b : UInt8) : String := "0x" ++ zeroPad 2 (hex b.toNat)

end TreeCode.Text

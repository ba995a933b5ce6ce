namespace Deadwood.Text

/-!
Hexadecimal numerals in lower case, with the sign of a negative number in front.
-/

def hexDigits (n : Nat) : String := String.ofList (Nat.toDigits 16 n)

def sign (n : Int) : String := if n < 0 then "-" else ""

/-- Zeros stand between sign and digits until the numeral, sign included, has `width` characters. -/
def hexPadded (width : Nat) (n : Int) : String :=
  let digits := hexDigits n.natAbs
  let zeros := width - (sign n).length - digits.length
  sign n ++ String.ofList (List.replicate zeros '0') ++ digits

/-- The numeral with its base in front, as in `0x20` and `-0x5`. -/
def hexMarked (n : Int) : String := sign n ++ "0x" ++ hexDigits n.natAbs

end Deadwood.Text

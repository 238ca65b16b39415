/-! Hexadecimal numerals as they appear in messages. -/
namespace EventReadout.Text

/-- Lower-case digits without padding; zero is one digit. -/
def hexDigits (n : Nat) : String := String.ofList (Nat.toDigits 16 n)

def hex (n : Nat) : String := "0x" ++ hexDigits n

/-- Zeros on the left fill the numeral to `width` digits; longer ones are kept whole. -/
def paddedHex (width n : Nat) : String :=
  let digits := Nat.toDigits 16 n
  "0x" ++ String.ofList (List.replicate (width - digits.length) '0' ++ digits)

end EventReadout.Text

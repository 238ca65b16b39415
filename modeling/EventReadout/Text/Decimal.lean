/-! Quotients written with a fixed number of decimal places. -/
namespace EventReadout.Text

/-- The nearest natural number to a quotient; a half goes to the even neighbour. -/
def roundDiv (num den : Nat) : Nat :=
  let q := num / den
  let twice := 2 * (num % den)
  if twice < den then q
  else if den < twice then q + 1
  else q + q % 2

/--
The nearest `m / 2 ^ k` to a quotient whose `m` has `bits` binary digits, as `m` and `k`.

The quotient has to be below `2 ^ bits`.
-/
def roundBinary (bits num den : Nat) : Nat × Nat :=
  let shift := bits + den.log2 - num.log2
  let k := if (num <<< shift) / den < 1 <<< bits then shift else shift - 1
  (roundDiv (num <<< k) den, k)

/-- A quotient with `places` decimal places, a half going to the even neighbour. -/
def fixed (places num den : Nat) : String :=
  let scale := Nat.pow 10 places
  let scaled := roundDiv (num * scale) den
  let fraction := toString (scaled % scale)
  toString (scaled / scale) ++ "." ++
    String.ofList (List.replicate (places - fraction.length) '0') ++ fraction

/-- Bytes in units of a million, rounded to 53 binary digits first and to two places then. -/
def megabytes (bytes : Nat) : String :=
  let (m, k) := roundBinary 53 bytes 1000000
  fixed 2 m (1 <<< k)

def padLeft (width : Nat) (s : String) : String :=
  String.ofList (List.replicate (width - s.length) ' ') ++ s

def padRight (width : Nat) (s : String) : String :=
  s ++ String.ofList (List.replicate (width - s.length) ' ')

end EventReadout.Text

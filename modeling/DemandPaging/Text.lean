/-!
# Number text

Addresses are written in lower-case hexadecimal after `0x` with no leading zeros, and the counts of
a device listing in decimal with leading zeros up to a fixed width.
-/

namespace DemandPaging

/-- Lower-case hexadecimal after `0x`, with no leading zeros; zero is `0x0`. -/
def hex (n : Nat) : String := "0x" ++ String.ofList (Nat.toDigits 16 n)

/-- Decimal text, filled up with zeros on the left to at least `width` digits. -/
def padded (width n : Nat) : String :=
  let digits := Nat.toDigits 10 n
  String.ofList (List.replicate (width - digits.length) '0' ++ digits)

end DemandPaging

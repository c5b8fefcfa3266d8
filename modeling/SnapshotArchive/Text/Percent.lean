import SnapshotArchive.Text.Hex

/-!
Percentages with one decimal place. A share is computed in binary64 arithmetic, and the decimals are
those of the exact binary value: to the nearest tenth, a tie to the even one.
-/

namespace SnapshotArchive.Text

/-- The whole number nearest to `num / den`, a tie to the even one. -/
def divNearestEven (num den : Nat) : Nat :=
  let q := num / den
  let r := num % den
  if 2 * r < den then q
  else if den < 2 * r then q + 1
  else if q % 2 = 0 then q else q + 1

/-- The significand and the power of two of a finite binary64 number that is not negative. -/
def binaryParts (x : Float) : Nat × Int :=
  let bits : Nat := x.toBits.toNat
  let exponent : Nat := (bits >>> 52) % 0x800
  let fraction : Nat := bits % 0x10000000000000
  if exponent = 0 then (fraction, -1074) else (fraction + 0x10000000000000, Int.ofNat exponent - 1075)

/-- Tenths in `significand * 2 ^ power`, rounded. -/
def tenths (significand : Nat) (power : Int) : Nat :=
  if 0 ≤ power then (significand <<< power.toNat) * 10
  else divNearestEven (significand * 10) (1 <<< (-power).toNat)

/-- A number of tenths with its decimal point. -/
def ofTenths (n : Nat) : String := toString (n / 10) ++ "." ++ toString (n % 10)

/-- A number that is not negative, with one decimal place. -/
def oneDecimal (x : Float) : String :=
  let (significand, power) := binaryParts x
  ofTenths (tenths significand power)

/-- The share of `part` in `whole` in hundredths; nothing is a share of zero. -/
def percent (part whole : Nat) : String :=
  if whole = 0 then oneDecimal 0
  else oneDecimal (part.toFloat * 100 / whole.toFloat)

end SnapshotArchive.Text

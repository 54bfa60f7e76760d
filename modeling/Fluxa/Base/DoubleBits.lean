import Fluxa.Base.Binary64

/-! The 64 bits of a double: a sign, eleven bits of exponent and fifty-two of significand. There is one NaN. -/

namespace Binary64

/-- The magnitude of the exponent and the significand; with an exponent of zero it is subnormal. -/
def ofFields (f : ℕ) : ℚ :=
  if f < 2 ^ 52 then scale f (-1074) else scale (2 ^ 52 + f % 2 ^ 52) ((f / 2 ^ 52 : ℕ) - 1075)

/-- The exponent tells the doubles apart: all ones for an infinity or a NaN. -/
def Double.ofBits (b : UInt64) : Double :=
  let neg := decide (2 ^ 63 ≤ b.toNat)
  let f := b.toNat % 2 ^ 63
  if f < 2047 * 2 ^ 52 then ofRat neg (if neg then -ofFields f else ofFields f)
  else if f = 2047 * 2 ^ 52 then inf neg
  else nan

end Binary64

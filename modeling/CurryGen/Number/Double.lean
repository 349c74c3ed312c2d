import CurryGen.Number.Integer

/-!
# Double-precision numbers

A `Double` is the 64 bits of an IEEE 754 double. Reading and writing decimals is exact arithmetic on
natural numbers: a decimal reads as the nearest double, and a double is written with the fewest
digits that read back as it.

* `Double.ofDecimal`: the double nearest to `m · 10 ^ e`, ties to the even significand.
* `Double.shortest`: the decimal on the coarsest power-of-ten grid that reads back.
* `Double.text`: the literal, always positional.
-/

namespace CurryGen.Number

/-- The bits of an IEEE 754 double. -/
structure Double where
  bits : UInt64
deriving DecidableEq, Repr, Inhabited

namespace Double

/-- What the bits of a double denote. A finite one is `±m · 2 ^ q`. -/
inductive Meaning where
  | nan
  | infinite (negative : Bool)
  | finite (negative : Bool) (m : Nat) (q : Int)
deriving DecidableEq, Repr

/-- The number of bits of the fraction field. -/
def fractionBits : Nat := 52

/-- The leading bit of a normal significand, which is not stored. -/
def hiddenBit : Nat := 1 <<< fractionBits

/-- The greatest exponent field; that of infinities and NaNs. -/
def maxField : Nat := 0x7FF

/-- The exponent of the subnormal numbers. -/
def minExponent : Int := -1074

/-- Splits the bits into sign, exponent and significand. -/
def meaning (x : Double) : Meaning :=
  let n := x.bits.toNat
  let negative := n >>> 63 == 1
  let field : Nat := (n >>> fractionBits) % (maxField + 1)
  let fraction := n % hiddenBit
  if field = maxField then if fraction = 0 then .infinite negative else .nan
  else if field = 0 then .finite negative fraction minExponent
  else .finite negative (hiddenBit + fraction) (minExponent + (field - 1))

/-- The number with the opposite sign. -/
def neg (x : Double) : Double := ⟨x.bits ^^^ 0x8000000000000000⟩

/-! ## Reading -/

/-- The quotient rounded to the nearest natural number, ties to even. -/
def roundDiv (n d : Nat) : Nat :=
  let q := n / d
  let r := n % d
  if 2 * r < d ∨ (2 * r = d ∧ q % 2 = 0) then q else q + 1

/-- The bits of positive infinity; larger magnitudes round to it. -/
def infinityBits : Nat := maxField <<< fractionBits

/-- The double nearest to the positive fraction `n / d`. The exponent is the one that leaves 53
significant bits, but not below that of the subnormal numbers; a significand that rounds up to
54 bits carries into the exponent field by itself. -/
def ofFraction (n d : Nat) : Double :=
  let guess : Int := (n.log2 : Int) - d.log2
  let below := n <<< (-guess).toNat < d <<< guess.toNat
  let exponent := if below then guess - 1 else guess
  let q := max (exponent - fractionBits) minExponent
  let m := roundDiv (n <<< (-q).toNat) (d <<< q.toNat)
  ⟨UInt64.ofNat (min ((q - minExponent).toNat <<< fractionBits + m) infinityBits)⟩

/-- A power of ten. -/
def tenTo (k : Nat) : Nat := Nat.pow 10 k

/-- The double nearest to `m · 10 ^ e`. Far outside the range of doubles the answer is known
without computing the power. -/
def ofDecimal (m : Nat) (e : Int) : Double :=
  let size : Int := (Nat.toDigits 10 m).length + e
  if m = 0 ∨ size < -400 then ⟨0⟩
  else if 400 < size then ⟨UInt64.ofNat infinityBits⟩
  else ofFraction (m * tenTo e.toNat) (tenTo (-e).toNat)

/-- The exponent after the mark `e` or `E`: digits with an optional sign. -/
def exponentOf : List Char → Int
  | '-' :: cs => -(ofDigits 10 cs : Int)
  | '+' :: cs => ofDigits 10 cs
  | cs => ofDigits 10 cs

/-- The double that a float literal without sign denotes. -/
def ofLiteral (text : List Char) : Double :=
  let isMark (c : Char) := c == 'e' || c == 'E'
  let mantissa := text.takeWhile (!isMark ·)
  let exponent := exponentOf ((text.dropWhile (!isMark ·)).drop 1)
  let whole := mantissa.takeWhile (· != '.')
  let fraction := (mantissa.dropWhile (· != '.')).drop 1
  ofDecimal (ofDigits 10 (whole ++ fraction)) (exponent - fraction.length)

/-! ## Writing -/

/-- The decimal `digits · 10 ^ exponent`. -/
structure Decimal where
  digits : Nat
  exponent : Int
deriving DecidableEq, Repr

/-- Four times the rounding interval of `m · 2 ^ q` over the common exponent `q - 2`: the least and
the greatest real that read as it, both included exactly when `m` is even. -/
def interval (m : Nat) (q : Int) : Nat × Nat :=
  (if m = hiddenBit ∧ minExponent < q then 4 * m - 1 else 4 * m - 2, 4 * m + 2)

/-- The multiple of `10 ^ k` that is nearest to `m · 2 ^ q` among those that read back as it; of two
equally near ones the greater. -/
def onGrid? (m : Nat) (q k : Int) : Option Nat :=
  let binary := q - 2
  -- over a common denominator: `value * scale` against multiples of `unit`
  let scale := tenTo (-k).toNat <<< binary.toNat
  let unit := tenTo k.toNat <<< (-binary).toNat
  let (low, high) := interval m q
  let reads (d : Nat) : Bool :=
    0 < d && (if m % 2 = 0 then low * scale ≤ d * unit && d * unit ≤ high * scale
      else low * scale < d * unit && d * unit < high * scale)
  let value := 4 * m * scale
  let d := value / unit
  if reads d && !(reads (d + 1) && unit ≤ 2 * (value % unit)) then some d
  else if reads (d + 1) then some (d + 1)
  else none

/-- The first decimal that reads back, from the grid of `10 ^ (steps - 325)` down. The grid of
`10 ^ (-325)` is finer than every rounding interval, so the search never runs out. -/
def shortestFrom (m : Nat) (q : Int) : Nat → Decimal
  | 0 => ⟨m, q⟩
  | steps + 1 =>
    let k : Int := (steps : Int) - 325
    match onGrid? m q k with
    | some d => ⟨d, k⟩
    | none => shortestFrom m q steps

/-- The decimal with the fewest digits that reads as `m · 2 ^ q`, and among those the nearest. -/
def shortest (m : Nat) (q : Int) : Decimal := shortestFrom m q 635

/-- A decimal without exponent mark. -/
def Decimal.positional (d : Decimal) : String :=
  let digits := toString d.digits
  if 0 ≤ d.exponent then digits ++ String.ofList (List.replicate d.exponent.toNat '0')
  else
    let places := (-d.exponent).toNat
    let padded := List.replicate (places + 1 - digits.length) '0' ++ digits.toList
    String.ofList (padded.take (padded.length - places)) ++ "." ++
      String.ofList (padded.drop (padded.length - places))

/-- The text of `m · 2 ^ q`. A whole number below `10 ^ 15` shows one decimal place. -/
def finiteText (m : Nat) (q : Int) : String :=
  if m = 0 then "0.0"
  else
    let d := shortest m q
    let whole := d.positional
    if 0 ≤ d.exponent ∧ d.digits * tenTo d.exponent.toNat < tenTo 15 then whole ++ ".0" else whole

/-- The literal of a double. -/
def text (x : Double) : String :=
  match x.meaning with
  | .nan => "NAN"
  | .infinite negative => if negative then "-INF" else "INF"
  | .finite negative m q => (if negative then "-" else "") ++ finiteText m q

/-! ## Truncation -/

/-- The number without its fraction, held between the 64-bit bounds; `0` for a NaN. -/
def truncate (x : Double) : Int :=
  match x.meaning with
  | .nan => 0
  | .infinite negative => if negative then minInt else maxInt
  | .finite negative m q =>
    let magnitude : Nat := (m <<< q.toNat) >>> (-q).toNat
    max minInt (min maxInt (if negative then -(magnitude : Int) else magnitude))

end Double

end CurryGen.Number

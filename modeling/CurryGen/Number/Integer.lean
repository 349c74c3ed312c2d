/-!
# 64-bit integers in text

Integers are mathematical integers that stay between `minInt` and `maxInt`. This module reads them
from decimal and hexadecimal digits and recognises the one decimal text that each of them has.
-/

namespace CurryGen.Number

/-- The least 64-bit integer. -/
def minInt : Int := -0x8000000000000000

/-- The greatest 64-bit integer. -/
def maxInt : Int := 0x7FFFFFFFFFFFFFFF

/-- The value of a digit in base 16, and so also in base 10. -/
def digitValue? (c : Char) : Option Nat :=
  if '0' ≤ c ∧ c ≤ '9' then some (c.toNat - '0'.toNat)
  else if 'a' ≤ c ∧ c ≤ 'f' then some (c.toNat - 'a'.toNat + 10)
  else if 'A' ≤ c ∧ c ≤ 'F' then some (c.toNat - 'A'.toNat + 10)
  else none

/-- The number that digits denote in a base, most significant first; characters that are no digits
count as zero. -/
def ofDigits (base : Nat) (cs : List Char) : Nat :=
  cs.foldl (fun n c => base * n + (digitValue? c).getD 0) 0

/-- Whether a text is one or more decimal digits. -/
def isDecimal (cs : List Char) : Bool := !cs.isEmpty && cs.all Char.isDigit

theorem isDecimal_iff {cs : List Char} :
    isDecimal cs = true ↔ cs ≠ [] ∧ ∀ c ∈ cs, c.isDigit = true := by
  simp [isDecimal]

/-- The integer whose canonical decimal text is `s`: no leading zeros, no plus sign, no `-0`, and
within 64 bits. -/
def ofCanonical? (s : String) : Option Int :=
  let n : Int := match s.toList with
    | '-' :: cs => -(ofDigits 10 cs : Int)
    | cs => ofDigits 10 cs
  if minInt ≤ n ∧ n ≤ maxInt ∧ toString n = s then some n else none

/-- The value of an integer literal without sign, in decimal or after `0x` in hexadecimal, or
`none` when it exceeds 64 bits. -/
def ofLiteral? (text : List Char) : Option Int :=
  let n := match text with
    | '0' :: 'x' :: cs | '0' :: 'X' :: cs => ofDigits 16 cs
    | cs => ofDigits 10 cs
  if (n : Int) ≤ maxInt then some n else none

end CurryGen.Number

import CurryGen.Number.Integer
import CurryGen.Yaml.Spot

/-!
# The text of tags

A tag is written with the characters of URIs. An escape, that is, a percent sign and two hexadecimal
digits, stands for an octet, and the octets of neighbouring escapes make up a character in UTF-8.

* `unescape?`: the characters that the text of a tag stands for.
* `tagText?`: reading the text of a tag.
-/

namespace CurryGen.Yaml

/-- Whether a character may stand in a tag; `verbatim` tags may hold flow delimiters. -/
def isTagChar (verbatim : Bool) (c : Char) : Bool :=
  isWordChar c || ";/?:@&=+$.%!~*'()".toList.contains c || (verbatim && ",[]".toList.contains c)

/-! ## Escapes -/

/-- The number of octets of a character by its first octet. -/
def octetCount? (first : Nat) : Option Nat :=
  if first < 0x80 then some 1
  else if first < 0xC0 then none
  else if first < 0xE0 then some 2
  else if first < 0xF0 then some 3
  else if first < 0xF8 then some 4
  else none

/-- A character of which some octets are still to come. -/
structure PartialChar where
  /-- The number of octets to come. -/
  missing : Nat
  /-- The bits of the code so far. -/
  code : Nat
  /-- The number of all octets. -/
  width : Nat

namespace PartialChar

/-- A character whose first octet has been read. -/
def ofFirst? (first : Nat) : Option PartialChar :=
  (octetCount? first).map fun
    | 1 => ⟨0, first, 1⟩
    | 2 => ⟨1, first % 0x20, 2⟩
    | 3 => ⟨2, first % 0x10, 3⟩
    | width => ⟨width - 1, first % 8, width⟩

/-- The character with one more octet. -/
def push? (p : PartialChar) (octet : Nat) : Option PartialChar :=
  if 0x80 ≤ octet ∧ octet < 0xC0 then
    some ⟨p.missing - 1, 0x40 * p.code + (octet - 0x80), p.width⟩
  else none

/-- The finished character. A code that is not written with the fewest octets, or that no character
has, stands for no other character. -/
def finish (p : PartialChar) : Char :=
  let c := Char.ofNat p.code
  if p.code.isValidChar ∧ c.utf8Size = p.width then c else '\ufffd'

end PartialChar

/-- The characters that the text of a tag stands for; `pending` is a character whose octets are not yet
complete. -/
def unescape? (pending : Option PartialChar) : List Char → Option (List Char)
  | [] => if pending.isNone then some [] else none
  | '%' :: a :: b :: cs =>
    match Number.digitValue? a, Number.digitValue? b with
    | some high, some low =>
      let octet := 0x10 * high + low
      match pending.elim (PartialChar.ofFirst? octet) (·.push? octet) with
      | none => none
      | some p =>
        if p.missing = 0 then (unescape? none cs).map (p.finish :: ·) else unescape? (some p) cs
    | _, _ => none
  | c :: cs => if pending.isSome || c == '%' then none else (unescape? none cs).map (c :: ·)

/-! ## Reading -/

/-- The text of a tag. -/
structure TagText where
  /-- The text up to the first null character. -/
  text : String
  /-- Whether nothing is written. -/
  isEmpty : Bool
  /-- What follows it. -/
  rest : List Spot

/-- Reads the longest text of a tag. -/
def tagText? (verbatim : Bool) (ss : List Spot) : Option TagText :=
  let written := textOf (ss.takeWhile (isTagChar verbatim ·.char))
  (unescape? none written).map fun cs =>
    { text := String.ofList (cs.takeWhile (· != '\x00'))
      isEmpty := written.isEmpty
      rest := ss.dropWhile (isTagChar verbatim ·.char) }

end CurryGen.Yaml

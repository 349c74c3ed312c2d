/-!
# YAML text

A YAML text is read as a list of characters that know their line and column, since its structure is
given by indentation. Line breaks of all kinds but two become line feeds first.

* `spots?`: the characters of a text, if all of them are allowed.
-/

namespace CurryGen.Yaml

/-- A character of a text, with its line and column counted from 0. -/
structure Spot where
  char : Char
  line : Nat
  column : Nat
deriving DecidableEq, Repr

/-! ## Characters -/

/-- The line break characters: line feed, and the line and paragraph separators. -/
def isBreak (c : Char) : Bool := c == '\n' || c == '\u2028' || c == '\u2029'

/-- The characters that separate words within a line. -/
def isSpace (c : Char) : Bool := c == ' ' || c == '\t'

/-- The characters of anchors and tag handles. -/
def isWordChar (c : Char) : Bool := c.isAlphanum || c == '_' || c == '-'

/-- The byte order mark, which may stand at the start of a line. It takes a column. -/
def byteOrderMark : Char := '\ufeff'

/-- Whether a character may occur in a text: no control characters and no non-characters. -/
def isAllowed (c : Char) : Bool :=
  let n := c.toNat
  n == 0x09 || n == 0x0A || n == 0x0D || (0x20 ≤ n && n ≤ 0x7E) || n == 0x85
    || (0xA0 ≤ n && n ≤ 0xFFFD) || 0x10000 ≤ n

/-! ## Places -/

/-- Writes the other line breaks as line feeds. -/
def unifyBreaks : List Char → List Char
  | [] => []
  | '\r' :: '\n' :: cs => '\n' :: unifyBreaks cs
  | c :: cs => (if c == '\r' || c == '\u0085' then '\n' else c) :: unifyBreaks cs

/-- The characters with their places, the first one at the given place. -/
def place (line column : Nat) : List Char → List Spot
  | [] => []
  | c :: cs =>
    ⟨c, line, column⟩ :: if isBreak c then place (line + 1) 0 cs else place line (column + 1) cs

/-- The characters of a text, unless one of them is not allowed. -/
def spots? (text : String) : Option (List Spot) :=
  if text.toList.all isAllowed then some (place 0 0 (unifyBreaks text.toList)) else none

/-! ## Looking ahead -/

/-- Whether a word ends here: at a space, a line break or the end. -/
def atWordEnd : List Spot → Bool
  | [] => true
  | s :: _ => isSpace s.char || isBreak s.char

/-- Whether a line begins here with a document marker, three times the character `c`. -/
def atMarker (c : Char) : List Spot → Bool
  | a :: b :: d :: rest =>
    a.column == 0 && a.char == c && b.char == c && d.char == c && atWordEnd rest
  | _ => false

/-- Whether a line begins here with either document marker. -/
def atAnyMarker (ss : List Spot) : Bool := atMarker '-' ss || atMarker '.' ss

/-- The text of characters. -/
def textOf (ss : List Spot) : List Char := ss.map (·.char)

end CurryGen.Yaml

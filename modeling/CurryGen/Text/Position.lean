/-!
# Positions in a text

Offsets into a text count UTF-8 bytes. `takeBytes` and `dropBytes` cut a text at an offset, and
`Position.ofOffset` turns an offset into the line and the column a reader sees.
-/

namespace CurryGen.Text

/-- The number of UTF-8 bytes of a text. -/
def byteLength : List Char → Nat
  | [] => 0
  | c :: cs => c.utf8Size + byteLength cs

/-- The longest front of a text that fits into `n` bytes. -/
def takeBytes : Nat → List Char → List Char
  | _, [] => []
  | n, c :: cs => if n < c.utf8Size then [] else c :: takeBytes (n - c.utf8Size) cs

/-- What `takeBytes` leaves. -/
def dropBytes : Nat → List Char → List Char
  | _, [] => []
  | n, c :: cs => if n < c.utf8Size then c :: cs else dropBytes (n - c.utf8Size) cs

/-- The text between two offsets. -/
def slice (start stop : Nat) (cs : List Char) : List Char :=
  takeBytes (stop - start) (dropBytes start cs)

/-- A place in a text as people count: lines from 1, and characters within the line from 1. -/
structure Position where
  line : Nat
  column : Nat
deriving DecidableEq, Repr, Inhabited

namespace Position

/-- The start of a text. -/
def start : Position := ⟨1, 1⟩

/-- The place just after a character. -/
def advance (p : Position) (c : Char) : Position :=
  if c = '\n' then ⟨p.line + 1, 1⟩ else ⟨p.line, p.column + 1⟩

/-- The place of an offset; offsets past the end stand for the end. -/
def ofOffset (text : List Char) (offset : Nat) : Position :=
  (takeBytes offset text).foldl advance start

end Position

end CurryGen.Text

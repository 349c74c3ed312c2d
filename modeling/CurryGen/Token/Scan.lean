import CurryGen.Text.Position
import CurryGen.Token.Basic

/-!
# Scanning

`scan` cuts a text into tokens, always taking the longest one. Blanks, open and close tags, line
comments, plain block comments and attributes are passed over. The first character decides which
class of token can follow, so each class has a small recogniser of its own; every recogniser counts
characters *after* the first, and the scan therefore always makes progress.

* `found`: what stands at the head of a text.
* `scan`: the tokens of a text with their offsets, or where no token begins.
-/

namespace CurryGen.Scan

/-- What stands at the head of a text, with the number of characters after the first that belong
to it. -/
inductive Found where
  | skipped (more : Nat)
  | token (kind : Token.Kind) (more : Nat)
  /-- No token begins here. The characters are those an error message shows. -/
  | stuck (more : Nat)
deriving DecidableEq, Repr

/-! ## Character classes -/

/-- Blanks between tokens; fewer characters than are blank elsewhere. -/
def isSpace (c : Char) : Bool := c == ' ' || c == '\t' || c == '\r' || c == '\n' || c == '\x0c'

def isNameStart (c : Char) : Bool := c.isAlpha || c == '_'

def isNameChar (c : Char) : Bool := c.isAlphanum || c == '_'

def isHexDigit (c : Char) : Bool :=
  c.isDigit || ('a' ≤ c && c ≤ 'f') || ('A' ≤ c && c ≤ 'F')

/-- The number of characters at the head of a text that satisfy `p`. -/
def count (p : Char → Bool) (cs : List Char) : Nat := (cs.takeWhile p).length

/-! ## Names and numbers -/

/-- The rest of a name whose current segment has begun. A backslash belongs to the name when another
segment follows it. -/
def nameTail : List Char → Nat
  | [] => 0
  | '\\' :: c :: cs => if isNameStart c then nameTail cs + 2 else 0
  | c :: cs => if isNameChar c then nameTail cs + 1 else 0

/-- The number of digits after a sign. Zero when there is no sign. -/
def signedDigits : List Char → Nat
  | '+' :: ds | '-' :: ds => count Char.isDigit ds
  | _ => 0

/-- An exponent: a mark, an optional sign and digits. Zero when there is none. -/
def exponent : List Char → Nat
  | [] => 0
  | mark :: cs =>
    if mark == 'e' || mark == 'E' then
      if 0 < count Char.isDigit cs then count Char.isDigit cs + 1
      else if 0 < signedDigits cs then signedDigits cs + 2
      else 0
    else 0

/-- A decimal point followed by digits and perhaps an exponent. Zero when there is none. -/
def fraction : List Char → Nat
  | '.' :: cs =>
    let digits := count Char.isDigit cs
    if digits = 0 then 0 else digits + 1 + exponent (cs.drop digits)
  | _ => 0

/-- Hexadecimal digits after their mark. Zero when there are none. -/
def hexTail : List Char → Nat
  | 'x' :: cs | 'X' :: cs =>
    let digits := count isHexDigit cs
    if digits = 0 then 0 else digits + 1
  | _ => 0

/-- A number whose first digit is `first`. -/
def number (first : Char) (cs : List Char) : Found :=
  let digits := count Char.isDigit cs
  let rest := cs.drop digits
  let tail := max (fraction rest) (exponent rest)
  if 0 < tail then .token .float (digits + tail)
  else if first == '0' && digits == 0 then .token .int (hexTail cs)
  else .token .int digits

/-! ## Strings, comments and attributes -/

/-- The units of a string after its opening quote: a character other than quote and backslash, or a
backslash with a character other than a line feed. Gives the length of the longest run of units,
and whether the closing quote follows. -/
def units (quote : Char) : List Char → Nat × Bool
  | [] => (0, false)
  | '\\' :: cs =>
    match cs with
    | [] => (0, false)
    | c :: rest =>
      if c == '\n' then (0, false)
      else
        let (n, closed) := units quote rest
        (n + 2, closed)
  | c :: cs =>
    if c == quote then (0, true)
    else
      let (n, closed) := units quote cs
      (n + 1, closed)

/-- A string that opens with `quote`. -/
def quoted (quote : Char) (cs : List Char) : Found :=
  match units quote cs with
  | (n, true) => .token .string (n + 1)
  | (n, false) => .stuck n

/-- The length of a text through its first `*/`. -/
def closeComment : List Char → Option Nat
  | [] => none
  | c :: cs =>
    match c, cs with
    | '*', '/' :: _ => some 2
    | _, _ => (closeComment cs).map (· + 1)

/-- A block comment; `cs` follows its `/*`. It documents if a second star follows that is not
already part of the closing `*/`. -/
def blockComment (cs : List Char) : Found :=
  match closeComment cs with
  | none => .stuck 1
  | some n =>
    if cs.head? = some '*' ∧ n ≠ 2 then .token .doc (n + 1) else .skipped (n + 1)

/-- How far an attribute has been read. -/
structure AttributeState where
  /-- The number of open brackets. -/
  depth : Nat := 1
  /-- The quote that is open; brackets inside quotes do not count. -/
  quote : Option Char := none
  /-- Whether a backslash inside quotes hides the next character. -/
  hidden : Bool := false
deriving DecidableEq, Repr

/-- The state after a character, or `none` after the `]` that ends the attribute. -/
def AttributeState.next (s : AttributeState) (c : Char) : Option AttributeState :=
  match s.quote with
  | some q =>
    if s.hidden then some { s with hidden := false }
    else if c == '\\' then some { s with hidden := true }
    else if c == q then some { s with quote := none }
    else some s
  | none =>
    if c == '\'' || c == '"' then some { s with quote := some c }
    else if c == '[' then some { s with depth := s.depth + 1 }
    else if c == ']' then if s.depth ≤ 1 then none else some { s with depth := s.depth - 1 }
    else some s

/-- The length of a text through the `]` that ends the attribute. -/
def closeAttribute (s : AttributeState) : List Char → Option Nat
  | [] => none
  | c :: cs =>
    match s.next c with
    | none => some 1
    | some s => (closeAttribute s cs).map (· + 1)

/-- An attribute group; `cs` follows its `#[`. -/
def attributeGroup (cs : List Char) : Found :=
  match closeAttribute {} cs with
  | some n => .skipped (n + 1)
  | none => .stuck 1

/-! ## Symbols -/

/-- The operators and punctuation marks, longer ones first. -/
def symbols : List String :=
  ["===", "!==", "<=>", "**=", "??=", "...", "?->", "<<=", ">>=",
   "::", "->", "=>", "==", "!=", "<>", "<=", ">=", "&&", "||", "??", "?:", "++", "--",
   "+=", "-=", "*=", "/=", ".=", "%=", "&=", "|=", "^=", "<<", ">>", "**",
   "-", "+", "*", "/", "%", "=", "<", ">", "!", "&", "|", "^", "~", "?", ":", ".", ",", ";",
   "(", ")", "[", "]", "\x7b", "\x7d", "@"]

/-- The longest symbol at the head of a text. -/
def symbolAt (c : Char) (cs : List Char) : Found :=
  match symbols.find? (·.toList.isPrefixOf (c :: cs)) with
  | some s => .token .symbol (s.length - 1)
  | none => .stuck 0

/-! ## The scan -/

/-- A run of blanks. -/
def blanks (cs : List Char) : Found := .skipped (count isSpace cs)

/-- A name that begins with a segment. -/
def plainName (cs : List Char) : Found := .token .name (nameTail cs)

/-- The rest of a line. -/
def lineComment (cs : List Char) : Found := .skipped (count (· != '\n') cs)

/-- A name after its leading backslash. -/
def rootedName : List Char → Found
  | [] => .stuck 0
  | d :: ds => if isNameStart d then .token .name (nameTail ds + 1) else .stuck 0

/-- A variable after its `$`. -/
def variableName : List Char → Found
  | [] => .stuck 0
  | d :: ds => if isNameStart d then .token .variable (count isNameChar ds + 1) else .stuck 0

/-- An attribute group or a comment after its `#`. -/
def afterHash : List Char → Found
  | '[' :: ds => attributeGroup ds
  | cs => lineComment cs

/-- A comment or an operator after its `/`. -/
def afterSlash : List Char → Found
  | '*' :: ds => blockComment ds
  | '/' :: ds => lineComment ('/' :: ds)
  | cs => symbolAt '/' cs

/-- The tag `c :: rest`, or an operator that begins with `c`. -/
def tagOrSymbol (c : Char) (rest cs : List Char) : Found :=
  if rest.isPrefixOf cs then .skipped rest.length else symbolAt c cs

/-- What stands at the head of the text that begins with a character, from what follows it. -/
def found (c : Char) : List Char → Found :=
  if isSpace c then blanks
  else if isNameStart c then plainName
  else if c.isDigit then number c
  else if c == '\'' || c == '"' then quoted c
  else if c == '\\' then rootedName
  else if c == '$' then variableName
  else if c == '#' then afterHash
  else if c == '/' then afterSlash
  else if c == '<' then tagOrSymbol '<' ['?', 'p', 'h', 'p']
  else if c == '?' then tagOrSymbol '?' ['>']
  else symbolAt c

/-- Where a scan ended because no token begins there. -/
structure Stuck where
  offset : Nat
  snippet : String
deriving DecidableEq, Repr

/-- The tokens of a text whose first character has the given offset. -/
def scanFrom (offset : Nat) : List Char → Except Stuck Run
  | [] => .ok []
  | c :: cs =>
    match found c cs with
    | .skipped k => scanFrom (offset + Text.byteLength (c :: cs.take k)) (cs.drop k)
    | .token kind k => do
      let text := c :: cs.take k
      let rest ← scanFrom (offset + Text.byteLength text) (cs.drop k)
      return ⟨⟨kind, String.ofList text⟩, offset⟩ :: rest
    | .stuck k => .error ⟨offset, String.ofList (c :: cs.take k)⟩
termination_by cs => cs.length
decreasing_by all_goals (simp only [List.length_drop, List.length_cons]; omega)

end CurryGen.Scan

namespace CurryGen

/-- The tokens of a text in order. -/
def scan (text : List Char) : Except Scan.Stuck Run := Scan.scanFrom 0 text

end CurryGen

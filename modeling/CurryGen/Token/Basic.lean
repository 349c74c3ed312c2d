/-!
# Tokens

A token of PHP source is its lexical class and its exact source text. `Placed` adds the byte offset
it starts at, from which the end follows.
-/

namespace CurryGen

/-- The lexical classes. Plain comments and attributes are no tokens. -/
inductive Token.Kind where
  /-- A documentation comment with its delimiters. -/
  | doc
  /-- A variable with its `$`. -/
  | variable
  /-- A name or keyword, possibly qualified with backslashes. -/
  | name
  | int
  | float
  /-- A quoted string with its quotes. -/
  | string
  /-- An operator or punctuation mark. -/
  | symbol
deriving DecidableEq, Repr

structure Token where
  kind : Token.Kind
  text : String
deriving DecidableEq, Repr

namespace Token

def symbol (text : String) : Token := ⟨.symbol, text⟩

/-- Whether this is the operator or punctuation mark `text`. -/
def isSymbol (text : String) (t : Token) : Bool := t.kind == .symbol && t.text == text

/-- Whether this is one of the names `words`, which are given in lower case; keywords ignore case. -/
def isKeywordIn (words : List String) (t : Token) : Bool :=
  t.kind == .name && words.contains t.text.toLower

def isKeyword (word : String) (t : Token) : Bool := t.isKeywordIn [word]

def isDoc (t : Token) : Bool := t.kind == .doc

def isVariable (t : Token) : Bool := t.kind == .variable

/-- The text of a name. -/
def name? (t : Token) : Option String := if t.kind = .name then some t.text else none

/-- The name of a variable, without the `$`. -/
def variableName? (t : Token) : Option String :=
  if t.kind = .variable then some (String.ofList (t.text.toList.drop 1)) else none

theorem name?_eq_some_iff {t : Token} {name : String} :
    t.name? = some name ↔ t.kind = .name ∧ t.text = name := by
  simp [name?]

theorem variableName?_eq_some_iff {t : Token} {name : String} :
    t.variableName? = some name ↔
      t.kind = .variable ∧ String.ofList (t.text.toList.drop 1) = name := by
  simp [variableName?]

end Token

/-- A token in its source. -/
structure Placed extends Token where
  /-- The byte offset of its first character. -/
  start : Nat
deriving DecidableEq, Repr

namespace Placed

/-- The byte offset just after the last character. -/
def stop (t : Placed) : Nat := t.start + t.text.utf8ByteSize

end Placed

/-- Part of a source, as its tokens in order. -/
abbrev Run := List Placed

namespace Run

/-- The tokens without their places. -/
def tokens (ts : Run) : List Token := ts.map Placed.toToken

/-- The texts of the tokens, one after another. -/
def join (ts : Run) : String := String.join (ts.map (·.text))

/-- The run without its documentation comments. -/
def code (ts : Run) : Run := ts.filter (!·.isDoc)

theorem length_code_le (ts : Run) : ts.code.length ≤ ts.length := List.length_filter_le _ _

end Run

end CurryGen

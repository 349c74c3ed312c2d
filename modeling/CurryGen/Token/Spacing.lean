import CurryGen.Token.Basic

/-!
# Spacing

`Token.format` writes tokens on one line with normalised spacing: a space between any two tokens,
except where `needsSpace` says that they belong together. Documentation comments are left out.
-/

namespace CurryGen.Token

/-- Keywords that keep a space before an opening parenthesis, and that no operand ends with. -/
def spacedKeywords : List String :=
  ["function", "fn", "use", "if", "elseif", "foreach", "for", "while", "switch", "catch",
   "match", "return", "echo", "print", "and", "or", "xor", "as", "instanceof", "new", "case",
   "yield", "throw", "else", "do"]

/-- Whether this is one of the symbols `texts`. -/
def isSymbolIn (texts : List String) (t : Token) : Bool := t.kind == .symbol && texts.contains t.text

/-- Whether a value can end with this token, so that a following sign is a binary operator. -/
def endsOperand (t : Token) : Bool :=
  match t.kind with
  | .variable | .int | .float | .string => true
  | .name => !t.isKeywordIn spacedKeywords
  | .symbol => t.isSymbolIn [")", "]", "\x7d"]
  | .doc => false

/-- Whether an opening parenthesis after this token holds call arguments. -/
def headsCall (t : Token) : Bool :=
  match t.kind with
  | .variable => true
  | .name => !t.isKeywordIn spacedKeywords
  | .symbol => t.isSymbolIn [")", "]"]
  | _ => false

/-- Whether a token is a sign or mark that belongs to what follows it. -/
def isUnary (previous : Option Token) (t : Token) : Bool :=
  t.isSymbolIn ["-", "+", "&", "++", "--"] && !previous.any endsOperand

/-- Whether a space stands between two neighbours; `unary` tells whether the first of them belongs
to the second. -/
def needsSpace (previous : Token) (unary : Bool) (t : Token) : Bool :=
  if unary then false
  else if previous.isSymbolIn ["(", "[", "->", "?->", "::", "...", "!", "@", "~"] then false
  else if t.isSymbolIn [",", ";", ")", "]", "->", "?->", "::"] then false
  else if t.isSymbolIn ["++", "--"] then !previous.endsOperand
  else if t.isSymbol "(" then !previous.headsCall
  else if t.isSymbol "[" then
    !(previous.kind == .variable || previous.kind == .string || previous.isSymbolIn [")", "]"])
  else true

/-- The texts of tokens that follow `previous`, with the spaces between them as texts of their
own. -/
def spacedAfter (previous : Token) (unary : Bool) : List Token → List String
  | [] => []
  | t :: ts =>
    let rest := t.text :: spacedAfter t (isUnary (some previous) t) ts
    if needsSpace previous unary t then " " :: rest else rest

/-- The texts of tokens with the spaces between them. -/
def spaced : List Token → List String
  | [] => []
  | t :: ts => t.text :: spacedAfter t (isUnary none t) ts

/-- Tokens on one line with normalised spacing. -/
def format (ts : List Token) : String := String.join (spaced (ts.filter (!·.isDoc)))

end CurryGen.Token

namespace CurryGen

/-- A run on one line with normalised spacing. -/
def Run.format (ts : Run) : String := Token.format ts.tokens

end CurryGen

import CurryGen.Tree.Expr

/-!
# Printing

Expressions and statements on one line. With a qualifier, calls of known functions by their bare
name are printed as static calls of the class that a name stands for, also where the expression is
only a run of tokens.

* `Expr.print`, `Stmt.print`: the text with or without a qualifier.
-/

namespace CurryGen

/-- The class name that calls of library functions are qualified with, and those functions. -/
structure Qualifier where
  className : String
  functions : List String
deriving Repr

namespace Print

/-- Whether a name after this token is a member or a declaration. -/
def introducesMember (t : Token) : Bool :=
  t.isSymbolIn ["::", "->", "?->"] || t.isKeywordIn ["function", "fn", "new"]

/-- Whether the token `t` between two others is the name of a library function being called. -/
def callsLibrary (q : Qualifier) (previous : Option Token) (t : Token) (next : Option Token) :
    Bool :=
  t.kind == .name && q.functions.contains t.text && next.any (·.isSymbol "(") &&
    !previous.any introducesMember

/-- Tokens with the class name put before the calls of library functions. -/
def qualifyAfter (q : Qualifier) (previous : Option Token) : List Token → List Token
  | [] => []
  | t :: ts =>
    let rest := t :: qualifyAfter q (some t) ts
    if callsLibrary q previous t ts.head? then
      ⟨.name, q.className⟩ :: .symbol "::" :: rest
    else rest

/-- Tokens on one line. -/
def tokens (q : Option Qualifier) (ts : List Token) : String :=
  match q with
  | none => Token.format ts
  | some q => Token.format (qualifyAfter q none ts)

/-- What is called. -/
def callee (q : Option Qualifier) : Callee → String
  | .function name =>
    match q with
    | some q => if q.functions.contains name then q.className ++ "::" ++ name else name
    | none => name
  | .static className method => className ++ "::" ++ method
  | .method receiver method => "$" ++ receiver ++ "->" ++ method

/-- The `use` clause of a closure; nothing when it captures nothing. -/
def uses (captures : List Capture) : String :=
  if captures.isEmpty then ""
  else " use (" ++ ", ".intercalate (captures.map fun c => (if c.byRef then "&$" else "$") ++ c.name)
    ++ ")"

/-- The return type of a closure. -/
def returnType (type : Option String) : String :=
  match type with
  | some type => ": " ++ type
  | none => ""

end Print

open Print in
mutual

/-- An expression on one line. -/
def Expr.print (q : Option Qualifier) : Expr → String
  | .variable name => "$" ++ name
  | .assign target value => "$" ++ target ++ " = " ++ value.print q
  | .call f args => callee q f ++ "(" ++ ", ".intercalate (printExprs q args) ++ ")"
  | .new className args =>
    "new " ++ className ++ "(" ++ ", ".intercalate (printExprs q args) ++ ")"
  | .closure head body => (if head.isStatic then "static " else "") ++ body.print q head
  | .array items => "[" ++ ", ".intercalate (printItems q items) ++ "]"
  | .literal _ source => source
  | .raw ts => tokens q ts

/-- Expressions, each on one line. -/
def printExprs (q : Option Qualifier) : List Expr → List String
  | [] => []
  | e :: es => e.print q :: printExprs q es

def ArrayItem.print (q : Option Qualifier) : ArrayItem → String
  | .value value => value.print q
  | .entry key value => key.print q ++ " => " ++ value.print q
  | .spread value => "..." ++ value.print q

/-- Array items, each on one line. -/
def printItems (q : Option Qualifier) : List ArrayItem → List String
  | [] => []
  | item :: items => item.print q :: printItems q items

/-- A closure without its `static`. -/
def ClosureBody.print (q : Option Qualifier) (head : ClosureHead) : ClosureBody → String
  | .arrow value =>
    "fn (" ++ Param.list head.params ++ ")" ++ returnType head.returnType ++ " => " ++ value.print q
  | .block statements =>
    "function (" ++ Param.list head.params ++ ")" ++ uses head.uses ++ returnType head.returnType ++
    " \x7b" ++
    (match printStatements q statements with
      | [] => ""
      | texts => " " ++ " ".intercalate texts ++ " ") ++
    "\x7d"

/-- A statement on one line, with its semicolon. -/
def Stmt.print (q : Option Qualifier) : Stmt → String
  | .mk (.ret (some value)) _ _ => "return " ++ value.print q ++ ";"
  | .mk (.ret none) _ _ => "return;"
  | .mk (.expr value) _ _ => value.print q ++ ";"
  | .mk .block ts _ => tokens q ts.tokens

/-- Statements, each on one line. -/
def printStatements (q : Option Qualifier) : List Stmt → List String
  | [] => []
  | s :: ss => s.print q :: printStatements q ss

end

end CurryGen

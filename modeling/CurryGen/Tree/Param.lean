import CurryGen.Token.Bracket
import CurryGen.Token.Spacing

/-!
# Parameters

Parameters of functions, methods and closures: how a parameter list is read and how a parameter is
declared and passed on.
-/

namespace CurryGen

/-- A parameter. The type and the default are kept as text. -/
structure Param where
  /-- The name without its `$`. -/
  name : String
  type : Option String := none
  default : Option String := none
  byRef : Bool := false
  variadic : Bool := false
deriving DecidableEq, Repr

namespace Param

/-- The parameter as declared, such as `int &...$name = 1`. -/
def declaration (p : Param) : String :=
  (match p.type with | some type => type ++ " " | none => "") ++
  (if p.byRef then "&" else "") ++ (if p.variadic then "..." else "") ++ "$" ++ p.name ++
  (match p.default with | some value => " = " ++ value | none => "")

/-- The parameter as passed on in a call: `$name`, or `...$name`. -/
def argument (p : Param) : String := (if p.variadic then "...$" else "$") ++ p.name

/-- A parameter list without its parentheses. -/
def list (ps : List Param) : String := ", ".intercalate (ps.map declaration)

/-! ## Reading -/

/-- Words that may stand before a class member or a promoted parameter. -/
def modifiers : List String :=
  ["public", "protected", "private", "static", "abstract", "final", "var", "readonly"]

/-- Whether a token before the variable is part of the type. -/
def isTypePart (t : Token) : Bool :=
  !t.isSymbol "&" && !t.isSymbol "..." && !t.isKeywordIn modifiers

/-- The parameter that a piece of a parameter list declares. A piece without a variable declares
none; modifiers are passed over. -/
def ofRun? (ts : Run) : Option Param :=
  let before := ts.takeWhile (!·.isVariable)
  match ts.dropWhile (!·.isVariable) with
  | [] => none
  | v :: after =>
    let type := before.filter (isTypePart ·.toToken)
    some
      { name := v.variableName?.getD ""
        type := if type.isEmpty then none else some (Run.join type)
        default := match after with
          | t :: value => if t.isSymbol "=" then some (Run.format value) else none
          | [] => none
        byRef := before.any (·.isSymbol "&")
        variadic := before.any (·.isSymbol "...") }

/-- A parameter is declared by the first variable of its tokens. -/
theorem exists_variable_of_ofRun? {ts : Run} {p : Param} (h : ofRun? ts = some p) :
    ∃ v after, ts.dropWhile (!·.isVariable) = v :: after ∧ v.isVariable = true := by
  have hhead := List.head?_dropWhile_not (fun t : Placed => !t.isVariable) ts
  unfold ofRun? at h
  simp only at h
  split at h
  · cases h
  · rename_i v after hsplit
    rw [hsplit] at hhead
    exact ⟨v, after, hsplit, by simpa using hhead⟩

/-- The parameters that the tokens between two parentheses declare. -/
def listOfRun (ts : Run) : List Param := (ts.splitTopLevel ",").filterMap ofRun?

end Param

end CurryGen

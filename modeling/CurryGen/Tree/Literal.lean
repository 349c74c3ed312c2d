import CurryGen.Number.Double
import CurryGen.Token.Basic

/-!
# Literals

Scalar literals and the tokens that denote them.
-/

namespace CurryGen

/-- A scalar literal; a leading minus is part of a number. -/
inductive Literal where
  | null
  | bool (value : Bool)
  | int (value : Int)
  | float (value : Number.Double)
  | string (value : String)
deriving DecidableEq, Repr

namespace Literal

/-- Undoes the escapes between the quotes of a string. Single quotes know `\\` and `\'`; double
quotes know `\\`, `\"`, `\n`, `\t`, `\r` and `\$`. Any other backslash stands for itself. -/
def unescape (quote : Char) : List Char → List Char
  | [] => []
  | ['\\'] => ['\\']
  | '\\' :: c :: cs =>
    (if c == '\\' || c == quote then [c]
     else if quote == '"' then
       match c with
       | 'n' => ['\n']
       | 't' => ['\t']
       | 'r' => ['\r']
       | '$' => ['$']
       | _ => ['\\', c]
     else ['\\', c]) ++ unescape quote cs
  | c :: cs => c :: unescape quote cs

/-- The value of a quoted string. A double-quoted string with a `$` may interpolate variables, so it
is no literal. -/
def unquote? (text : List Char) : Option (List Char) :=
  match text with
  | [] => none
  | quote :: rest =>
    let inner := rest.dropLast
    if quote == '"' && inner.contains '$' then none else some (unescape quote inner)

/-- The literal that one token denotes. -/
def ofToken? (t : Token) : Option Literal :=
  match t.kind with
  | .int => (Number.ofLiteral? t.text.toList).map .int
  | .float => some (.float (.ofLiteral t.text.toList))
  | .string => (unquote? t.text.toList).map fun cs => .string (String.ofList cs)
  | .name =>
    match t.text.toLower with
    | "null" => some .null
    | "true" => some (.bool true)
    | "false" => some (.bool false)
    | _ => none
  | _ => none

/-- The literal that a minus and a number denote. -/
def ofNegated? (t : Token) : Option Literal :=
  match t.kind with
  | .int => (Number.ofLiteral? t.text.toList).map fun n => .int (-n)
  | .float => some (.float (Number.Double.ofLiteral t.text.toList).neg)
  | _ => none

/-- The literal that a run denotes, with its source text. -/
def ofRun? : Run → Option (Literal × String)
  | [t] => (ofToken? t.toToken).map (·, t.text)
  | [sign, t] =>
    if sign.isSymbol "-" then (ofNegated? t.toToken).map (·, "-" ++ t.text) else none
  | _ => none

/-- A literal is one token, or a number after its sign. -/
theorem exists_of_ofRun? {ts : Run} {value : Literal} {source : String}
    (h : ofRun? ts = some (value, source)) :
    (∃ t, ts = [t] ∧ ofToken? t.toToken = some value ∧ source = t.text) ∨
      ∃ sign t, ts = [sign, t] ∧ sign.isSymbol "-" = true ∧ ofNegated? t.toToken = some value ∧
        source = "-" ++ t.text := by
  unfold ofRun? at h
  split at h
  · rename_i t
    obtain ⟨_, hvalue, heq⟩ := Option.map_eq_some_iff.1 h
    cases heq
    exact .inl ⟨t, rfl, hvalue, rfl⟩
  · rename_i sign t
    split at h
    · rename_i hsign
      obtain ⟨_, hvalue, heq⟩ := Option.map_eq_some_iff.1 h
      cases heq
      exact .inr ⟨sign, t, rfl, hsign, hvalue, rfl⟩
    · cases h
  · cases h

end Literal

end CurryGen

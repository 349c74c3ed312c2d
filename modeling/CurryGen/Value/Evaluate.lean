import CurryGen.ClassName
import CurryGen.Tree.Expr
import CurryGen.Value.Basic

/-!
# Evaluation

The values that provider methods return, as far as they are literal data: scalars, arrays with keys
and spreads, and variables bound by earlier assignments. Any other expression evaluates to a value
without a literal form.

* `ArrayBuilder.put`: writing an entry, with the key of an append chosen automatically.
* `Expr.eval`, `Bindings.run`: evaluating an expression and a method body.
-/

namespace CurryGen

/-- An array under construction. -/
structure ArrayBuilder where
  entries : List (Key × Value) := []
  /-- The key of the next append, or `none` once the greatest key has been written. -/
  next : Option Int := some 0
  /-- Whether something was appended after that. -/
  overflowed : Bool := false

namespace ArrayBuilder

/-- Replaces the value of a key in place, or adds the entry at the end. -/
def assign (key : Key) (value : Value) : List (Key × Value) → List (Key × Value)
  | [] => [(key, value)]
  | entry :: entries =>
    if entry.1 = key then (key, value) :: entries else entry :: assign key value entries

/-- The key of the next append once `key` has been written. -/
def nextAfter (next : Option Int) : Key → Option Int
  | .string _ => next
  | .int n => if n = Number.maxInt then none else next.map (max · (n + 1))

/-- Writes the value of a key. -/
def write (b : ArrayBuilder) (key : Key) (value : Value) : ArrayBuilder :=
  { b with entries := assign key value b.entries, next := nextAfter b.next key }

/-- Appends a value. -/
def append (b : ArrayBuilder) (value : Value) : ArrayBuilder :=
  match b.next with
  | some n => b.write (.int n) value
  | none => { b with overflowed := true }

/-- Spreads an array: string keys are kept and all else is appended. -/
def spread (b : ArrayBuilder) (entries : List (Key × Value)) : ArrayBuilder :=
  entries.foldl (fun b (key, value) =>
    match key with
    | .int _ => b.append value
    | .string _ => b.write key value) b

/-- The finished array. -/
def build (b : ArrayBuilder) : Value := if b.overflowed then .foreign "array" else .array b.entries

end ArrayBuilder

/-- The key that a value stands for: booleans, truncated floats and canonical decimal strings are
integers, and null is the empty string. -/
def Value.key? : Value → Option Key
  | int n => some (.int n)
  | bool b => some (.int (if b then 1 else 0))
  | null => some (.string "")
  | float x => some (.int x.truncate)
  | string s =>
    match Number.ofCanonical? s with
    | some n => some (.int n)
    | none => some (.string s)
  | _ => none

def Literal.toValue : Literal → Value
  | null => .null
  | bool b => .bool b
  | int n => .int n
  | float x => .float x
  | string s => .string s

/-- The variables bound so far, latest first. -/
abbrev Bindings := List (String × Value)

mutual

/-- The value of an expression. -/
def Expr.eval (env : Bindings) : Expr → Value
  | .literal value _ => value.toValue
  | .array items => (evalItems env {} items).build
  | .variable name => (env.lookup name).getD (.foreign "mixed")
  | .assign _ value => value.eval env
  | .closure .. => .foreign "Closure"
  | .new className _ => .foreign (shortName className)
  | .call .. | .raw _ => .foreign "mixed"

/-- Adds the items of an array in order. -/
def evalItems (env : Bindings) (b : ArrayBuilder) : List ArrayItem → ArrayBuilder
  | [] => b
  | item :: items => evalItems env (item.addTo env b) items

/-- Adds an item to an array. What cannot be spread, and a value under what is no key, is appended
as a value without a literal form. -/
def ArrayItem.addTo (env : Bindings) (b : ArrayBuilder) : ArrayItem → ArrayBuilder
  | .value value => b.append (value.eval env)
  | .spread value =>
    match value.eval env with
    | .array entries => b.spread entries
    | other => b.append (.foreign other.typeName)
  | .entry key value =>
    let key := key.eval env
    match key.key? with
    | some k => b.write k (value.eval env)
    | none => b.append (.foreign key.typeName)

end

namespace Bindings

/-- The bindings and the returned value after a statement; `returned` is the value before it. -/
def step : Bindings × Option Value → Stmt → Bindings × Option Value
  | (env, returned), s =>
    match s.form with
    | .expr (.assign target value) => ((target, value.eval env) :: env, returned)
    | .ret (some value) => (env, some (value.eval env))
    | _ => (env, returned)

/-- Runs statements: assignments bind their variables, and the last `return` with a value gives the
result. -/
def run (env : Bindings) (statements : List Stmt) : Bindings × Option Value :=
  statements.foldl step (env, none)

end Bindings

end CurryGen

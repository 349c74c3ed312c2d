import CurryGen.Number.Double

/-!
# Values

The values of data providers: scalars, ordered arrays, and values without a literal form, of which
only the type is known. `Value.text` writes a value as a literal.
-/

namespace CurryGen

/-- An array key. -/
inductive Key where
  | int (value : Int)
  | string (value : String)
deriving DecidableEq, Repr

inductive Value where
  | null
  | bool (value : Bool)
  | int (value : Int)
  | float (value : Number.Double)
  | string (value : String)
  /-- The entries in order. -/
  | array (entries : List (Key × Value))
  /-- A value without a literal form. -/
  | foreign (type : String)
deriving Inhabited

/-- A text between single quotes, with a backslash before each quote and backslash in it. -/
def quote (s : String) : String :=
  "'" ++ String.ofList (s.toList.flatMap fun c => if c == '\\' || c == '\'' then ['\\', c] else [c])
    ++ "'"

def Key.text : Key → String
  | .int n => toString n
  | .string s => quote s

namespace Value

/-- The array of these values with the keys `0, 1, …`. -/
def list (values : List Value) : Value := .array (values.zipIdx.map fun (v, i) => (.int i, v))

/-- The values of entries whose keys are `index, index + 1, …`. -/
def valuesFrom? (index : Int) : List (Key × Value) → Option (List Value)
  | [] => some []
  | (key, value) :: entries =>
    if key = .int index then (valuesFrom? (index + 1) entries).map (value :: ·) else none

/-- The values of an array whose keys are `0, 1, …`. -/
def asList? : Value → Option (List Value)
  | array entries => valuesFrom? 0 entries
  | _ => none

mutual

/-- Whether the value and all values inside it have a literal form. -/
def isPrintable : Value → Bool
  | foreign _ => false
  | array entries => arePrintable entries
  | _ => true

def arePrintable : List (Key × Value) → Bool
  | [] => true
  | (_, value) :: entries => value.isPrintable && arePrintable entries

end

mutual

/-- The literal of a value. Keys are left out of an array with the keys `0, 1, …`; a value without a
literal form shows its type in braces. -/
def text : Value → String
  | null => "null"
  | bool b => if b then "true" else "false"
  | int n => toString n
  | float x => x.text
  | string s => quote s
  | array entries =>
    "[" ++ ", ".intercalate (entryTexts (valuesFrom? 0 entries).isNone entries) ++ "]"
  | foreign type => "\x7b" ++ type ++ "\x7d"

/-- The texts of array entries, with their keys if `keyed`. -/
def entryTexts (keyed : Bool) : List (Key × Value) → List String
  | [] => []
  | (key, value) :: entries =>
    (if keyed then key.text ++ " => " ++ value.text else value.text) :: entryTexts keyed entries

end

/-- The type that a value without a literal form is known by. -/
def typeName : Value → String
  | foreign type => type
  | _ => "mixed"

end Value

end CurryGen

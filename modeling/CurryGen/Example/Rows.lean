import CurryGen.Template.CallShape
import CurryGen.Tree.Print
import CurryGen.Value.Evaluate

/-!
# Example rows

The lines that show how a function is used, each a call and its result. They come from the method
`test<Name>` of the example class or, where that gives none, from the first rows of test data.

* `Examples.customRows`: the statements of an example method, assertions turned into rows.
* `Examples.basicRows`: rows of test data turned into calls.
-/

namespace CurryGen

/-- Where example rows come from. -/
structure Examples where
  template : Template
  examples : ClassDecl
  providers : Option ClassDecl
  /-- The name that the generated class is shown as. -/
  className : String

namespace Examples

/-- How calls are printed in rows. -/
def qualifier (x : Examples) : Qualifier := ⟨x.className, x.template.names⟩

/-! ## Rows from example methods -/

/-- Whether a call is one of the test class itself. -/
def isOwnCall : Callee → Bool
  | .function _ => true
  | .method receiver _ => receiver == "this"
  | .static className _ => Template.isOwnClass className

/-- The expected and the actual value of an `assertSame` statement. -/
def assertion? (s : Stmt) : Option (Expr × Expr) :=
  match s.form with
  | .expr (.call callee [expected, actual]) =>
    if isOwnCall callee && callee.name == "assertSame" then some (expected, actual) else none
  | _ => none

/-- Whether a variable occurs in statements. -/
def occursIn (name : String) (statements : List Stmt) : Bool :=
  statements.any fun s => s.tokens.any fun t => t.isVariable && t.variableName? == some name

/-- The row of an assertion. -/
def assertionRow (q : Qualifier) (expected actual : Expr) : String :=
  actual.print (some q) ++ "; // => " ++ expected.print (some q)

/-- The row of one statement. -/
def row (q : Qualifier) (s : Stmt) : String :=
  match assertion? s with
  | some (expected, actual) => assertionRow q expected actual
  | none => s.print (some q)

/-- The row of an assignment and the assertion about its variable that follows it, unless the
variable is used later. -/
def foldedRow? (q : Qualifier) (s next : Stmt) (later : List Stmt) : Option String :=
  match s.form, assertion? next with
  | .expr (.assign target value), some (expected, .variable name) =>
    if name = target ∧ !occursIn name later then some (assertionRow q expected value) else none
  | _, _ => none

/-- The rows of statements. -/
def rowsOf (q : Qualifier) : List Stmt → List String
  | [] => []
  | [s] => [row q s]
  | s :: next :: later =>
    match foldedRow? q s next later with
    | some text => text :: rowsOf q later
    | none => row q s :: rowsOf q (next :: later)

/-- The rows of the example method of a function. -/
def customRows (x : Examples) (f : TemplateFunction) : List String :=
  match x.examples.method? ("test" ++ f.capitalizedName) with
  | some method => rowsOf x.qualifier method.statements
  | none => []

/-! ## Rows from test data -/

/-- The number of rows shown. -/
def maxBasicRows : Nat := 3

/-- The texts of the values passed for the declared parameters. Values received as one array are
passed one by one. -/
def ownTexts (shape : CallShape) (values : List Value) : List String :=
  match if shape.variadicAsArray ∧ values.length = shape.own.length then
      values.getLast?.bind (·.asList?) else none with
  | some last => (values.dropLast ++ last).map (·.text)
  | none => values.map (·.text)

/-- The row of an expected value and arguments. A variadic function takes all arguments itself. -/
def dataRow (className : String) (f : TemplateFunction) (shape : CallShape) (expected : Value)
    (args : List Value) : String :=
  let variadicTail := shape.own.getLast?.any (·.variadic) && !shape.variadicAsArray
  let taken := if variadicTail then args.length else shape.own.length
  className ++ "::" ++ f.name ++ "(" ++ ", ".intercalate (ownTexts shape (args.take taken)) ++ ")" ++
    (if f.returnsCallable then "(" ++ ", ".intercalate ((args.drop taken).map (·.text)) ++ ")" else "")
    ++ "; // => " ++ expected.text

/-- The row of an entry of test data: a list of an expected value and arguments, all of them with a
literal form. -/
def dataRow? (className : String) (f : TemplateFunction) (shape : CallShape) (data : Value) :
    Option String :=
  match data.asList? with
  | some (expected :: args) =>
    if expected.isPrintable && args.all (·.isPrintable) then
      some (dataRow className f shape expected args)
    else none
  | _ => none

/-- The test data of a function, if it is an array. -/
def data? (x : Examples) (f : TemplateFunction) : Option (List (Key × Value)) := do
  let provider ← (← x.providers).method? f.providerName
  match (Bindings.run [] provider.statements).2 with
  | some (.array entries) => some entries
  | _ => none

/-- The rows of the first entries of test data. The call shape is needed only where there are
data. -/
def basicRows (x : Examples) (f : TemplateFunction) : Except Error (List String) :=
  match x.data? f with
  | none => .ok []
  | some entries => do
    let shape ← x.template.callShape f
    return (entries.filterMap fun (_, data) => dataRow? x.className f shape data).take maxBasicRows

/-- The rows of a function: those of its example method or, without any, those of its test data. -/
def rows (x : Examples) (f : TemplateFunction) : Except Error (List String) :=
  match x.customRows f with
  | [] => x.basicRows f
  | custom => .ok custom

end Examples

end CurryGen

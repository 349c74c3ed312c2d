import CurryGen.Template.Basic

/-!
# Call shapes

How generated tests and examples call a function: the parameters that a row of test data is spread
over, and the arguments that pass them on.
-/

namespace CurryGen

structure CallShape where
  /-- The declared parameters without types and defaults. -/
  own : List Param
  /-- The inner parameters of a function that returns a callable, less those whose names are
  taken. -/
  inner : List Param
  /-- Whether the variadic parameter at the end of `own` is received as one array. -/
  variadicAsArray : Bool
deriving DecidableEq, Repr

namespace CallShape

/-- A parameter without type and default. -/
def strip (p : Param) : Param := { name := p.name, variadic := p.variadic }

/-- Applies `g` to the last element. -/
def mapLast {α : Type} (g : α → α) (l : List α) : List α :=
  l.dropLast ++ (l.getLast?.map g).toList

/-- The call shape of a function with these inner parameters. The variadic parameter is received as
an array when the inner parameters are fixed in number, or follow it in the test. -/
def of (f : TemplateFunction) (innerParams : List Param) : CallShape :=
  let innerVariadic := innerParams.getLast?.any (·.variadic)
  let asArray := f.isVariadic && !innerParams.isEmpty && (!innerVariadic || f.returnsCallable)
  let own := f.params.map strip
  let own := if asArray then mapLast (fun p => { name := p.name, type := some "array" }) own else own
  let taken := own.map (·.name)
  { own
    inner := if f.returnsCallable then (innerParams.filter (!taken.contains ·.name)).map strip else []
    variadicAsArray := asArray }

/-- The parameters of a test after the expected value. -/
def testParams (s : CallShape) : List Param := s.own ++ s.inner

/-- The arguments that pass the declared parameters on. -/
def ownArguments (s : CallShape) : List String :=
  if s.variadicAsArray then
    s.own.dropLast.map (·.argument) ++ (s.own.getLast?.map ("...$" ++ ·.name)).toList
  else s.own.map (·.argument)

/-- The arguments that pass the inner parameters on. -/
def innerArguments (s : CallShape) : List String := s.inner.map (·.argument)

end CallShape

/-- The call shape of a function. Inner parameters are resolved only where a call needs them. -/
def Template.callShape (t : Template) (f : TemplateFunction) : Except Error CallShape :=
  if f.needsInnerParams then (t.innerParams f.name).map (CallShape.of f) else .ok (.of f [])

end CurryGen

import CurryGen.Artifact.TestClass

/-!
# Basic tests

Every function is called directly and with its arguments split over two calls in every way.

* `BasicTest.curryChain`: the ways to split a call.
* `BasicTest.method?`, `BasicTest.file`: the test of a function and the whole class.
-/

namespace CurryGen.BasicTest

open Code

/-- A call with its arguments. -/
def call (callee : String) (args : List String) : String :=
  callee ++ "(" ++ ", ".intercalate args ++ ")"

/-- The call with the first `n` arguments, and a second call with the others if there are any. -/
def splitCall (callee : String) (args : List String) (n : Nat) : String :=
  let first := call callee (args.take n)
  match args.drop n with
  | [] => first
  | rest => call first rest

/-- Every way to split the arguments over two successive calls. -/
def curryChain (callee : String) (args : List String) : List String :=
  (List.range (args.length + 1)).map (splitCall callee args)

def assertion (actual : String) : String := "$this->assertEquals($expected, " ++ actual ++ ");"

/-- The call of a function in one go. -/
def directCall (callee : String) (f : TemplateFunction) (shape : CallShape) : String :=
  let own := call callee shape.ownArguments
  if f.returnsCallable then call own shape.innerArguments else own

/-- The calls of a curried function that take its arguments one after another. The variadic argument
of a function that returns no callable is passed in a call of its own at the end. -/
def chainCalls (callee : String) (f : TemplateFunction) (shape : CallShape) : List String :=
  let own := shape.ownArguments
  if f.returnsCallable then
    (curryChain callee own).map fun first => call first shape.innerArguments
  else match if f.isVariadic then own.getLast? else none with
    | some last => (curryChain callee own.dropLast).map fun first => call first [last]
    | none => curryChain callee own

/-- The test of a function with this call shape. -/
def methodWith (c : Config) (providers : Option ClassDecl) (f : TemplateFunction)
    (shape : CallShape) : Method :=
  let callee := c.api.shownAs ++ "::" ++ f.name
  { doc := TestClass.providerDoc f providers
    name := "test" ++ f.capitalizedName
    params := TestClass.testParams shape
    body := assertion (directCall callee f shape) ::
      if f.isCurried then "" :: (chainCalls callee f shape).map assertion else [] }

/-- The test of a function. Functions that return an object are tested by hand. -/
def method? (c : Config) (t : Template) (providers : Option ClassDecl) (f : TemplateFunction) :
    Except Error (Option Method) :=
  if f.returnsObject then .ok none
  else (t.callShape f).map fun shape => some (methodWith c providers f shape)

theorem exists_of_method? {c : Config} {t : Template} {providers : Option ClassDecl}
    {f : TemplateFunction} {m : Method} (h : method? c t providers f = .ok (some m)) :
    ∃ shape, t.callShape f = .ok shape ∧ m = methodWith c providers f shape := by
  unfold method? at h
  split at h
  · cases h
  · cases hshape : t.callShape f with
    | error e =>
      rw [hshape] at h
      cases h
    | ok shape =>
      rw [hshape] at h
      cases h
      exact ⟨shape, rfl, rfl⟩

/-- The class of basic tests. -/
def file (c : Config) (t : Template) (providers : Option ClassDecl) : Except Error ClassFile := do
  let methods ← t.functions.mapM (method? c t providers)
  return TestClass.file c c.output.basicTest (methods.filterMap id)

end CurryGen.BasicTest

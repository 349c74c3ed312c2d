import CurryGen.Artifact.BasicTest

/-!
# Collection tests

Every function that takes a collection is called with its collection wrapped in each of two
fixtures. The tests check the result, and that the wrapped values are as before.

* `CollectionTest.methods`, `CollectionTest.file`: the tests of a function and the whole class.
-/

namespace CurryGen.CollectionTest

open Code

/-- The local variable that holds the wrapped collection. -/
def wrapped : String := "$wrappedCollection"

/-- The direct call of a function with the wrapped collection in place of `variable`. -/
def wrappedCall (callee variableName : String) (f : TemplateFunction) (shape : CallShape) : String :=
  let own := shape.ownArguments.map fun arg => if arg = variableName then wrapped else arg
  let first := BasicTest.call callee own
  if f.returnsCallable then BasicTest.call first shape.innerArguments else first

/-- The test of a function with the fixture of the given class. -/
def methodWith (c : Config) (providers : Option ClassDecl) (f : TemplateFunction)
    (shape : CallShape) (collection fixture suffix : String) : Method :=
  let variableName := "$" ++ collection
  { doc := TestClass.providerDoc f providers
    name := "test" ++ f.capitalizedName ++ suffix
    params := TestClass.testParams shape
    body :=
      [wrapped ++ " = new " ++ shortName fixture ++ "(" ++ variableName ++ ");",
       "$actual = " ++ wrappedCall (c.api.shownAs ++ "::" ++ f.name) variableName f shape ++ ";",
       "if ($actual instanceof " ++ shortName c.tests.collectionInterface ++ ") \x7b",
       "    $actual = $actual->" ++ c.tests.toArrayMethod ++ "();",
       "\x7d",
       "",
       "$this->assertEquals($expected, $actual);",
       "$this->assertEquals(" ++ variableName ++ ", " ++ wrapped ++ "->" ++ c.tests.valuesMethod ++
         "());"] }

/-- The two tests of a function; none unless it takes one collection and returns no object. -/
def methods (c : Config) (t : Template) (providers : Option ClassDecl) (f : TemplateFunction) :
    Except Error (List Method) :=
  match f.collectionArgument? with
  | none => .ok []
  | some collection =>
    if f.returnsObject || f.isVariadic then .ok []
    else (t.callShape f).map fun shape =>
      [methodWith c providers f shape collection c.tests.fullFixture "",
       methodWith c providers f shape collection c.tests.simpleFixture "Simple"]

/-- A function is tested with both fixtures or not at all. -/
theorem exists_of_methods {c : Config} {t : Template} {providers : Option ClassDecl}
    {f : TemplateFunction} {ms : List Method} (h : methods c t providers f = .ok ms) :
    ms = [] ∨ ∃ collection shape, f.collectionArgument? = some collection ∧
      t.callShape f = .ok shape ∧
      ms = [methodWith c providers f shape collection c.tests.fullFixture "",
        methodWith c providers f shape collection c.tests.simpleFixture "Simple"] := by
  unfold methods at h
  split at h
  · cases h
    exact .inl rfl
  · rename_i collection hcollection
    split at h
    · cases h
      exact .inl rfl
    · cases hshape : t.callShape f with
      | error e =>
        rw [hshape] at h
        cases h
      | ok shape =>
        rw [hshape] at h
        cases h
        exact .inr ⟨collection, shape, hcollection, rfl, rfl⟩

/-- The class of collection tests. -/
def file (c : Config) (t : Template) (providers : Option ClassDecl) : Except Error ClassFile := do
  let methods ← t.functions.mapM (methods c t providers)
  let base := TestClass.file c c.output.collectionTest methods.flatten
  return { base with
    imports := Api.addImports base.imports
      [c.tests.fullFixture, c.tests.simpleFixture, c.tests.collectionInterface] }

end CurryGen.CollectionTest

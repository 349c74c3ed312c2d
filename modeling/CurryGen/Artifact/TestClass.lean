import CurryGen.Artifact.Api

/-!
# Test classes

What the generated test classes have in common.
-/

namespace CurryGen.TestClass

open Code

/-- The documentation that names the data of a function's tests, unless the loaded class of test
data has none for it. -/
def providerDoc (f : TemplateFunction) (providers : Option ClassDecl) : Option (List String) :=
  if providers.any fun c => (c.method? f.providerName).isNone then none
  else some ["@dataProvider " ++ f.providerName]

/-- The parameters of a test method. -/
def testParams (shape : CallShape) : List Param := { name := "expected" } :: shape.testParams

/-- The imports of a test class: its parent and its trait, unless they are in its own namespace, and
the library class. -/
def imports (c : Config) : List String :=
  ((c.tests.baseClass :: c.tests.providerTrait.toList).filter fun name =>
    isQualified name && qualify c.tests.namespaceName (shortName name) != name) ++
  [c.api.importLine]

/-- The test class in the file of the given name. -/
def file (c : Config) (fileName : String) (methods : List Method) : ClassFile :=
  { header := c.header
    namespaceName := Api.properNamespace c.tests.namespaceName
    imports := imports c
    content :=
      { name := (Text.before? ".php" fileName).getD fileName
        parent := some (shortName c.tests.baseClass)
        traits := c.tests.providerTrait.toList.map shortName
        methods } }

end CurryGen.TestClass

import CurryGen.ClassName
import CurryGen.Path
import CurryGen.Template.Basic

/-!
# Configuration

What is generated, from which files and to which. Every setting has a default.
-/

namespace CurryGen

/-- A class in a source file. -/
structure ClassRef where
  path : Path
  className : String
deriving DecidableEq, Repr

/-- The generated library class. -/
structure ApiConfig where
  namespaceName : String := "Curryforge"
  className : String := "P"
  /-- The name that the class is imported as in tests and shown as in examples. -/
  shownAs : String := "P"
  /-- The traits of the class, fully qualified. -/
  traits : List String := []
  combinators : Combinators := {}
deriving DecidableEq, Repr

namespace ApiConfig

def qualifiedClass (api : ApiConfig) : String := qualify api.namespaceName api.className

/-- The import that makes the class available under its alias. -/
def importLine (api : ApiConfig) : String :=
  if api.shownAs = api.className then api.qualifiedClass
  else api.qualifiedClass ++ " as " ++ api.shownAs

end ApiConfig

/-- The generated test classes. Class names are fully qualified. -/
structure TestsConfig where
  namespaceName : String := "Curryforge\\Tests"
  baseClass : String := "PHPUnit\\Framework\\TestCase"
  /-- The trait with the methods that provide test data. -/
  providerTrait : Option String := none
  fullFixture : String := "Curryforge\\Tests\\Fixtures\\CollectionFixture"
  simpleFixture : String := "Curryforge\\Tests\\Fixtures\\SimpleCollectionFixture"
  /-- The interface that results are checked against. -/
  collectionInterface : String := "Curryforge\\Collection"
  /-- The fixture method that returns the values it was made from. -/
  valuesMethod : String := "getValues"
  toArrayMethod : String := "toArray"
deriving DecidableEq, Repr

/-- Where the artifacts go. -/
structure OutputConfig where
  directory : Path := ⟨"generated"⟩
  api : String := "P.php"
  basicTest : String := "BasicTest.php"
  collectionTest : String := "CollectionTest.php"
  docs : String := "functions.rst"
deriving DecidableEq, Repr

structure Config where
  template : ClassRef := ⟨⟨"src/Internal/InnerFunctions.php"⟩, "InnerFunctions"⟩
  examples : ClassRef := ⟨⟨"tests/ExamplesTest.php"⟩, "ExamplesTest"⟩
  /-- The class with the methods that provide test data, if any. -/
  providers : Option ClassRef := none
  api : ApiConfig := {}
  tests : TestsConfig := {}
  output : OutputConfig := {}
  /-- The lines at the head of every artifact. -/
  header : List String :=
    ["This file is generated by curryforge.",
     "Do not edit it by hand; change the template and regenerate."]
  /-- The title of the reference document. -/
  docsTitle : String := "Functions"
deriving DecidableEq, Repr

namespace Config

/-- The configuration with its paths seen from `base`. -/
def resolvedAgainst (c : Config) (base : Path) : Config :=
  let resolve (r : ClassRef) : ClassRef := { r with path := base.join r.path }
  { c with
    template := resolve c.template
    examples := resolve c.examples
    providers := c.providers.map resolve
    output := { c.output with directory := base.join c.output.directory } }

end Config

end CurryGen

import CurryGen.Doc.Comment
import CurryGen.Tree.Source

/-!
# Template functions

A template function is a method definition with its documentation. Its signature, that is, what the
generated code must know about calling it, follows from the two.
-/

namespace CurryGen

/-- What the declaration and the documentation of a function say about calling it. -/
structure Signature where
  /-- The number of arguments after which the function is fully applied. -/
  arity : Nat
  /-- Whether the last parameter is variadic. -/
  variadic : Bool
  /-- The name of the last parameter if it takes a collection. -/
  collection : Option String
  /-- The documented return types. -/
  returnTypes : List String
deriving DecidableEq, Repr

namespace Signature

/-- The names by which an untyped last parameter takes a collection. -/
def collectionNames : List String := ["collection", "list", "map", "values"]

/-- A variadic last parameter of this name holds arguments that are already collected, so it counts
towards the arity. -/
def collectedArguments : String := "arguments"

/-- The signature of a function with these parameters and this documentation. -/
def infer (params : List Param) (doc : DocComment) : Signature :=
  let last := params.getLast?
  let uncounted := last.any fun p => p.variadic && p.name != collectedArguments
  { arity := params.length - (if uncounted then 1 else 0)
    variadic := last.any (·.variadic)
    collection := (last.filter fun p => p.type.isNone && collectionNames.contains p.name).map (·.name)
    returnTypes := (doc.returnTag?.map (·.types)).getD [] }

end Signature

/-- A template function. -/
structure TemplateFunction where
  definition : MethodDecl

namespace TemplateFunction

def name (f : TemplateFunction) : String := f.definition.name

def params (f : TemplateFunction) : List Param := f.definition.params

def statements (f : TemplateFunction) : List Stmt := f.definition.statements

/-- The documentation; empty when there is none. -/
def doc (f : TemplateFunction) : DocComment := (f.definition.doc.map DocComment.read).getD {}

def signature (f : TemplateFunction) : Signature := .infer f.params f.doc

def arity (f : TemplateFunction) : Nat := f.signature.arity

/-- Whether there are arguments to take one after another. -/
def isCurried (f : TemplateFunction) : Bool := f.arity != 0

def isVariadic (f : TemplateFunction) : Bool := f.signature.variadic

def collectionArgument? (f : TemplateFunction) : Option String := f.signature.collection

def isCollectionFunction (f : TemplateFunction) : Bool := f.collectionArgument?.isSome

def returnTypes (f : TemplateFunction) : List String := f.signature.returnTypes

def hasReturnType (f : TemplateFunction) (type : String) : Bool := f.returnTypes.contains type

/-- Whether the only documented return type is `callable`. -/
def returnsCallable (f : TemplateFunction) : Bool := f.returnTypes == ["callable"]

/-- Whether the only documented return type is `object`. -/
def returnsObject (f : TemplateFunction) : Bool := f.returnTypes == ["object"]

/-- Whether calling the function takes the parameters of the callable that its body returns. -/
def needsInnerParams (f : TemplateFunction) : Bool := f.returnsCallable || f.isVariadic

def isDeprecated (f : TemplateFunction) : Bool := f.doc.deprecated?.isSome

/-- The name with an upper-case first letter; names are ASCII. -/
def capitalizedName (f : TemplateFunction) : String :=
  match f.name.toList with
  | [] => ""
  | c :: cs => String.ofList (c.toUpper :: cs)

/-- The name of the method that provides test data for the function. -/
def providerName (f : TemplateFunction) : String := "get" ++ f.capitalizedName ++ "Data"

end TemplateFunction

end CurryGen

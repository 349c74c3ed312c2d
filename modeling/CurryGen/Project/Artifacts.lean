import CurryGen.Artifact.CollectionTest
import CurryGen.Artifact.Reference

/-!
# What a project yields

From the configuration and the source files of a project follow the artifacts, and the summaries of
its functions.

* `Config.artifacts`: the four generated files.
* `Config.summaries`: what is known about each function.
-/

namespace CurryGen

/-- The source files of a project. -/
structure Sources where
  template : SourceFile
  examples : SourceFile
  providers : Option SourceFile

/-- A generated file. -/
structure Artifact where
  /-- The name in the output directory. -/
  fileName : String
  contents : String
deriving DecidableEq, Repr

/-- A template function with the parameters of the callable that it returns, where a call needs
them. -/
structure FunctionSummary where
  function : TemplateFunction
  innerParams : List Param

/-- The class that a reference names in its file. -/
def ClassRef.find (r : ClassRef) (file : SourceFile) : Except Error ClassDecl :=
  match file.class? r.className with
  | some c => .ok c
  | none => .error (.classNotFound r.className r.path)

namespace Config

/-- The template in the class that the configuration names. -/
def findTemplate (c : Config) (file : SourceFile) : Except Error Template := do
  Template.ofClass (← c.template.find file) c.api.combinators

/-- The class of test data, if the project has one. -/
def findProviders (c : Config) (file : Option SourceFile) : Except Error (Option ClassDecl) :=
  match file, c.providers with
  | some file, some reference => (reference.find file).map some
  | _, _ => .ok none

/-- The generated files of a template and its examples. `imports` are those of the template's
file. -/
def artifactsOf (c : Config) (x : Examples) (imports : List String) :
    Except Error (List Artifact) := do
  let api ← Api.file c x imports
  let basic ← BasicTest.file c x.template x.providers
  let collection ← CollectionTest.file c x.template x.providers
  let document ← Reference.document c x
  return [⟨c.output.api, api.render⟩, ⟨c.output.basicTest, basic.render⟩,
    ⟨c.output.collectionTest, collection.render⟩, ⟨c.output.docs, document⟩]

/-- The generated files. -/
def artifacts (c : Config) (s : Sources) : Except Error (List Artifact) := do
  let template ← c.findTemplate s.template
  let examples ← c.examples.find s.examples
  let providers ← c.findProviders s.providers
  c.artifactsOf { template, examples, providers, className := c.api.shownAs } s.template.imports

/-- The summary of a function. -/
def summary (t : Template) (f : TemplateFunction) : Except Error FunctionSummary :=
  if f.needsInnerParams then (t.innerParams f.name).map (FunctionSummary.mk f) else .ok ⟨f, []⟩

/-- The summaries of all functions. -/
def summaries (c : Config) (file : SourceFile) : Except Error (List FunctionSummary) := do
  let t ← c.findTemplate file
  t.functions.mapM (summary t)

end Config

end CurryGen

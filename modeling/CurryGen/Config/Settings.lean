import CurryGen.Config.Basic

/-!
# Settings

A settings file is a tree of texts, lists and groups. This module reads a configuration from such a
tree. Every key is optional and no other key is allowed; a key may stand only once.

* `Setting.text?`, `texts?`, `optional?`, `group?`: what a tree can be read as.
* `Config.ofSetting?`: the configuration that a tree describes.
-/

namespace CurryGen

/-- What a text says where a value may be absent. -/
inductive Presence where
  | present
  | absent
  /-- It is said to be absent, but something else is written. -/
  | contradictory
deriving DecidableEq, Repr

/-- A tree of settings. -/
inductive Setting where
  /-- A text. `isEmpty` tells that nothing was written at all. -/
  | text (value : String) (presence : Presence) (isEmpty : Bool)
  /-- The absence of a value, where it has no spelling. -/
  | null
  | list (items : List Setting)
  /-- Keys with their settings, in order. -/
  | group (entries : List (String × Setting))
  /-- A value that no setting has. -/
  | other
deriving Inhabited

namespace Setting

/-! ## Reading one setting -/

/-- A text, whatever it spells. -/
def text? : Setting → Option String
  | text value _ _ => some value
  | _ => none

def path? (s : Setting) : Option Path := s.text?.map Path.mk

/-- A list of texts; nothing at all is the empty list. -/
def texts? : Setting → Option (List String)
  | list items => items.mapM text?
  | text _ _ true => some []
  | _ => none

/-- A setting that may be absent. -/
def optional? {α : Type} (read : Setting → Option α) : Setting → Option (Option α)
  | text _ .absent _ | null => some none
  | text _ .contradictory _ => none
  | s => (read s).map some

/-! ## Reading groups -/

/-- The entries of a group in which every key is one of `keys` and stands once; nothing at all is the
empty group. -/
def group? (keys : List String) : Setting → Option (List (String × Setting))
  | group entries =>
    if (entries.map (·.1)).Nodup ∧ ∀ entry ∈ entries, entry.1 ∈ keys then some entries else none
  | text _ _ true => some []
  | _ => none

/-- The setting of a key, or a default where the key is missing. -/
def entry? {α : Type} (entries : List (String × Setting)) (key : String) (read : Setting → Option α)
    (default : α) : Option α :=
  match entries.lookup key with
  | some s => read s
  | none => some default

/-- The setting of a key that must be there. -/
def required? {α : Type} (entries : List (String × Setting)) (key : String)
    (read : Setting → Option α) : Option α :=
  (entries.lookup key).bind read

end Setting

open Setting

/-! ## The configuration -/

/-- The keys of a class reference. -/
def ClassRef.keys : List String := ["path", "class"]

def ClassRef.ofSetting? (s : Setting) : Option ClassRef := do
  let entries ← s.group? ClassRef.keys
  return { path := ← required? entries "path" path?
           className := ← required? entries "class" text? }

/-- The keys of the library class. -/
def ApiConfig.keys : List String := ["namespace", "class", "alias", "traits", "curry", "partial"]

def ApiConfig.ofSetting? (s : Setting) : Option ApiConfig := do
  let entries ← s.group? ApiConfig.keys
  let base : ApiConfig := {}
  return { namespaceName := ← entry? entries "namespace" text? base.namespaceName
           className := ← entry? entries "class" text? base.className
           shownAs := ← entry? entries "alias" text? base.shownAs
           traits := ← entry? entries "traits" texts? base.traits
           combinators :=
             { curry := ← entry? entries "curry" text? base.combinators.curry
               fix := ← entry? entries "partial" text? base.combinators.fix } }

/-- The keys of the test classes. -/
def TestsConfig.keys : List String :=
  ["namespace", "base_class", "provider_trait", "full_fixture", "simple_fixture",
   "collection_interface", "values_method", "to_array_method"]

def TestsConfig.ofSetting? (s : Setting) : Option TestsConfig := do
  let entries ← s.group? TestsConfig.keys
  let base : TestsConfig := {}
  return { namespaceName := ← entry? entries "namespace" text? base.namespaceName
           baseClass := ← entry? entries "base_class" text? base.baseClass
           providerTrait := ← entry? entries "provider_trait" (optional? text?) base.providerTrait
           fullFixture := ← entry? entries "full_fixture" text? base.fullFixture
           simpleFixture := ← entry? entries "simple_fixture" text? base.simpleFixture
           collectionInterface :=
             ← entry? entries "collection_interface" text? base.collectionInterface
           valuesMethod := ← entry? entries "values_method" text? base.valuesMethod
           toArrayMethod := ← entry? entries "to_array_method" text? base.toArrayMethod }

/-- The keys of the output. -/
def OutputConfig.keys : List String := ["directory", "api", "basic_test", "collection_test", "docs"]

def OutputConfig.ofSetting? (s : Setting) : Option OutputConfig := do
  let entries ← s.group? OutputConfig.keys
  let base : OutputConfig := {}
  return { directory := ← entry? entries "directory" path? base.directory
           api := ← entry? entries "api" text? base.api
           basicTest := ← entry? entries "basic_test" text? base.basicTest
           collectionTest := ← entry? entries "collection_test" text? base.collectionTest
           docs := ← entry? entries "docs" text? base.docs }

/-- The keys of a configuration. -/
def Config.keys : List String :=
  ["template", "examples", "providers", "api", "tests", "output", "header", "docs_title"]

/-- The configuration that a tree describes. -/
def Config.ofSetting? (s : Setting) : Option Config := do
  let entries ← s.group? Config.keys
  let base : Config := {}
  return { template := ← entry? entries "template" ClassRef.ofSetting? base.template
           examples := ← entry? entries "examples" ClassRef.ofSetting? base.examples
           providers :=
             ← entry? entries "providers" (optional? ClassRef.ofSetting?) base.providers
           api := ← entry? entries "api" ApiConfig.ofSetting? base.api
           tests := ← entry? entries "tests" TestsConfig.ofSetting? base.tests
           output := ← entry? entries "output" OutputConfig.ofSetting? base.output
           header := ← entry? entries "header" texts? base.header
           docsTitle := ← entry? entries "docs_title" text? base.docsTitle }

end CurryGen

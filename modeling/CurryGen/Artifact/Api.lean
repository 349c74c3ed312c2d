import CurryGen.Code.ClassFile
import CurryGen.Config.Basic
import CurryGen.Example.Rows

/-!
# The library class

One public static method per template function, which collects its arguments one after another. The
body is that of the template, and the documentation shows examples.

* `Api.curriedDoc`: the documentation of a method.
* `Api.method`, `Api.file`: a method and the whole class.
-/

namespace CurryGen.Api

open Code

/-! ## Documentation -/

/-- The lines of a comment as they stand in the library: a curried function may also return a
callable, unless it always does. -/
def returnRewritten (f : TemplateFunction) : List String :=
  match f.doc.returnTag? with
  | some tag =>
    if f.isCurried && !f.returnsCallable then
      f.doc.lines.modify tag.line fun line =>
        "@return callable|" ++ Text.trimStart ((Text.after? "@return" line).getD line)
    else f.doc.lines
  | none => f.doc.lines

/-- Lines without the empty ones at the end. -/
def dropEmptyEnd (lines : List String) : List String :=
  (lines.reverse.dropWhile (· == "")).reverse

/-- Lines of text before and after a code block, with an empty line on each side where there is
text. -/
def withCode (before rows after : List String) : List String :=
  let before := dropEmptyEnd before
  before ++ (if before.isEmpty then [] else [""]) ++ ["```php"] ++ rows ++ ["```"] ++
    (if after.isEmpty then [] else "" :: after)

/-- The documentation of the method of a function with these example rows. The examples stand before
the first tag. -/
def curriedDoc (f : TemplateFunction) (rows : List String) : Option (List String) :=
  if f.doc.isEmpty && rows.isEmpty then none
  else
    let lines := returnRewritten f
    if rows.isEmpty then some lines
    else
      let split := f.doc.firstTagLine?.getD lines.length
      some (withCode (lines.take split) rows (lines.drop split))

/-! ## Methods -/

/-- A parameter as the library declares it: untyped, and null by default unless variadic. -/
def nullable (p : Param) : Param :=
  { name := p.name, byRef := p.byRef, variadic := p.variadic,
    default := if p.variadic then none else some "null" }

/-- The source lines of a template function's body. -/
def templateBody (f : TemplateFunction) : List String := f.statements.flatMap (·.lines)

/-- The body that collects arguments for that of the template. -/
def curriedBody (combinators : Combinators) (f : TemplateFunction) : List String :=
  ["return static::" ++ combinators.curry ++ "(" ++ toString f.arity ++ ", function (" ++
    Param.list f.params ++ ") \x7b"] ++
  (templateBody f).map (indented 1) ++
  ["\x7d, func_get_args());"]

/-- The method of a function with these example rows. -/
def methodWith (c : Config) (f : TemplateFunction) (rows : List String) : Method :=
  { doc := curriedDoc f rows
    isStatic := true
    name := f.name
    params := f.params.map nullable
    body := if f.isCurried then curriedBody c.api.combinators f else templateBody f }

/-- The method of a function. -/
def method (c : Config) (x : Examples) (f : TemplateFunction) : Except Error Method :=
  (x.rows f).map (methodWith c f)

/-! ## The class -/

/-- A namespace that is not the global one. -/
def properNamespace (name : String) : Option String := if name = "" then none else some name

/-- Imports with those names added that have several segments and are not imported yet. -/
def addImports (imports names : List String) : List String :=
  names.foldl (fun imports name =>
    if isQualified name && !imports.contains name then imports ++ [name] else imports) imports

/-- The library class. `imports` are those of the template's file. -/
def file (c : Config) (x : Examples) (imports : List String) : Except Error ClassFile := do
  let methods ← x.template.functions.mapM (method c x)
  return {
      header := c.header
      namespaceName := properNamespace c.api.namespaceName
      imports := addImports imports c.api.traits
      content := { name := c.api.className, traits := c.api.traits.map shortName, methods } }

end CurryGen.Api

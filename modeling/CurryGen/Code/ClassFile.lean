import CurryGen.Code.Layout
import CurryGen.Tree.Param

/-!
# Class files

A generated source file holds one class, whose method bodies are lines that are ready to be written.

* `ClassFile.render`: the text of a file.
-/

namespace CurryGen.Code

/-- A method of a generated class. -/
structure Method where
  /-- The lines of the documentation comment, if there is one. -/
  doc : Option (List String) := none
  isStatic : Bool := false
  name : String
  params : List Param := []
  body : List String := []
deriving DecidableEq, Repr

/-- A generated class. -/
structure Class where
  doc : Option (List String) := none
  name : String
  parent : Option String := none
  traits : List String := []
  methods : List Method := []
deriving DecidableEq, Repr

/-- A generated source file. -/
structure ClassFile where
  /-- The lines of the comment after the open tag. -/
  header : List String := []
  namespaceName : Option String := none
  imports : List String := []
  content : Class
deriving DecidableEq, Repr

/-- The lines of a comment that opens with `opening`. Empty lines have no blank after the star. -/
def commentLines (opening : String) (lines : List String) : List String :=
  opening :: lines.map (fun line => if line = "" then " *" else " * " ++ line) ++ [" */"]

/-- A documentation comment, if there is one. -/
def docMarks (doc : Option (List String)) : List Mark :=
  match doc with
  | some lines => block (commentLines "/**" lines)
  | none => []

def Method.marks (m : Method) : List Mark :=
  docMarks m.doc ++
    .line ((if m.isStatic then "public static" else "public") ++ " function " ++ m.name ++ "(" ++
      Param.list m.params ++ ")") ::
    braced (block m.body)

/-- Marks of several things with an empty line between them. -/
def separated : List (List Mark) → List Mark
  | [] => []
  | [marks] => marks
  | marks :: rest => marks ++ .blank :: separated rest

def Class.marks (c : Class) : List Mark :=
  let uses := c.traits.map fun name => Mark.line ("use " ++ name ++ ";")
  let members := (if uses.isEmpty then [] else [uses]) ++ c.methods.map (·.marks)
  docMarks c.doc ++
    .line ("class " ++ c.name ++ match c.parent with
      | some parent => " extends " ++ parent
      | none => "") ::
    braced (separated members)

namespace ClassFile

def marks (f : ClassFile) : List Mark :=
  let header := if f.header.isEmpty then [] else block (commentLines "/*" f.header) ++ [.blank]
  let namespaceMarks := match f.namespaceName with
    | some name => [Mark.line ("namespace " ++ name ++ ";"), .blank]
    | none => []
  let imports := if f.imports.isEmpty then []
    else (f.imports.map fun name => Mark.line ("use " ++ name ++ ";")) ++ [.blank]
  [.line "<?php", .blank] ++ header ++ namespaceMarks ++ imports ++ f.content.marks

/-- The text of a file. -/
def render (f : ClassFile) : String := layout f.marks

end ClassFile

end CurryGen.Code

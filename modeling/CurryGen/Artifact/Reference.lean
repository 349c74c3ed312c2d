import CurryGen.Code.Layout
import CurryGen.Config.Basic
import CurryGen.Example.Rows

/-!
# The reference document

The function reference in reStructuredText: a section per function with its signature, summary and
examples.

* `Reference.signature`: the line that shows how a function is called.
* `Reference.sectionWith`, `Reference.document`: a section and the whole document.
-/

namespace CurryGen.Reference

/-! ## Signatures -/

/-- Whether a documented type is shown before its parameter: `array`, `callable` or one class. -/
def isShown (type : String) : Bool :=
  let name := type.toList.dropWhile (· == '\\')
  type == "array" || type == "callable" ||
    (!type.toList.contains '|' && name.head?.any Char.isUpper &&
      name.all fun c => c.isAlphanum || c == '_' || c == '\\')

/-- A parameter with its documented tag, if it has one. -/
def param (p : Param) (tag : Option ParamTag) : String :=
  (match tag with
    | some tag => if isShown tag.type then tag.type ++ " " else ""
    | none => "") ++
  (if p.variadic then "...$" else "$") ++ p.name ++
  (match p.default with
    | some value => " = " ++ value
    | none => "")

/-- The parameters of a function; tags belong to them in order. -/
def params : List Param → List ParamTag → List String
  | [], _ => []
  | p :: ps, tags => param p tags.head? :: params ps (tags.drop 1)

/-- The signature line of a function. -/
def signature (f : TemplateFunction) (className : String) : String :=
  (f.doc.returnTag?.map (·.primary)).getD "mixed" ++ " " ++ className ++ "::" ++ f.name ++ "(" ++
    ", ".intercalate (params f.params f.doc.paramTags) ++ ")"

/-! ## Text -/

/-- A name with its leading underscore escaped, which would be markup. -/
def escapeName (name : String) : String :=
  match Text.after? "_" name with
  | some rest => "\\_" ++ rest
  | none => name

/-- The line that announces a deprecation. -/
def deprecationNotice (text : String) : String :=
  match Text.after? "Since" text with
  | some rest => "Deprecated since" ++ rest
  | none => if text = "" then "Deprecated." else "Deprecated: " ++ text

/-- The character that delimits code spans. -/
def tick : Char := '\x60'

/-- A text with every tick doubled, except that two in a row stay two. -/
def doubleTicks : List Char → List Char
  | [] => []
  | [c] => if c == tick then [tick, tick] else [c]
  | c :: d :: cs =>
    if c == tick then tick :: tick :: (if d == tick then doubleTicks cs else doubleTicks (d :: cs))
    else c :: doubleTicks (d :: cs)

/-- A line with its code spans written as literals. -/
def convertSpans (line : String) : String := String.ofList (doubleTicks line.toList)

/-- A heading with its underline. -/
def heading (mark : Char) (title : String) : List String :=
  [title, String.ofList (List.replicate title.length mark)]

/-! ## Sections -/

/-- Lines followed by an empty one, or nothing. -/
def paragraph (lines : List String) : List String := if lines.isEmpty then [] else lines ++ [""]

/-- The section of a function with these example rows. -/
def sectionWith (className : String) (f : TemplateFunction) (rows : List String) : List String :=
  let name := escapeName f.name
  [".. _" ++ name ++ ":", ""] ++
  heading '-' name ++ [""] ++
  ["``" ++ signature f className ++ "``", ""] ++
  paragraph (f.doc.deprecated?.map deprecationNotice).toList ++
  paragraph (f.doc.summary.map convertSpans) ++
  (if rows.isEmpty then [] else
    [".. code-block:: php", ""] ++ rows.map ("    " ++ ·) ++ [""])

/-- The lines before the sections. -/
def preamble (c : Config) (size : Nat) : List String :=
  (if c.header.isEmpty then [] else
    [".."] ++ c.header.map (fun line => if line = "" then "" else "   " ++ line) ++ [""]) ++
  heading '=' c.docsTitle ++ [""] ++
  ["Currently included functions (" ++ toString size ++ "):", ""]

/-- The reference document. -/
def document (c : Config) (x : Examples) : Except Error String := do
  let sections ← x.template.functions.mapM fun f =>
    (x.rows f).map (sectionWith c.api.shownAs f)
  return Code.unlines (preamble c x.template.size ++ sections.flatten)

end CurryGen.Reference

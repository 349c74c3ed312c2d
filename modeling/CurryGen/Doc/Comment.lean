import CurryGen.Text.Blank

/-!
# Documentation comments

A comment is its content lines. Summary lines come first, then tags: `@param`, one `@return`, and
`@deprecated`, which may stand anywhere.

* `DocComment.read`: the content of a raw comment.
* `DocComment.summary`, `paramTags`, `returnTag?`, `deprecated?`: what the lines say.
-/

namespace CurryGen

structure DocComment where
  /-- The lines without comment decoration. -/
  lines : List String := []
deriving DecidableEq, Repr

/-- `@param type $name description`. -/
structure ParamTag where
  /-- The type; empty when the tag has none. -/
  type : String
  name : String
  description : String
deriving DecidableEq, Repr

/-- `@return types description`. -/
structure ReturnTag where
  /-- The index of the tag among the lines. -/
  line : Nat
  /-- The whole type expression, such as `int|float`. -/
  primary : String
  description : String
deriving DecidableEq, Repr

/-- The types of a type expression, in order. -/
def ReturnTag.types (tag : ReturnTag) : List String := Text.splitAt '|' tag.primary

namespace DocComment

def isEmpty (doc : DocComment) : Bool := doc.lines.isEmpty

/-! ## Reading -/

/-- A line without its decoration: the blanks around it, one star and one space after the star. -/
def undecorate (line : String) : String :=
  let line := Text.trim line
  let line := (Text.after? "*" line).getD line
  Text.trimEnd ((Text.after? " " line).getD line)

/-- Lines without the empty ones at both ends. -/
def dropEmptyEnds (lines : List String) : List String :=
  ((lines.dropWhile (· == "")).reverse.dropWhile (· == "")).reverse

/-- The content of a raw comment with its delimiters. -/
def read (raw : String) : DocComment :=
  let body := Text.trim raw
  let body := (Text.after? "/**" body).getD body
  let body := (Text.before? "*/" body).getD body
  ⟨dropEmptyEnds ((Text.lines body.toList).map fun line => undecorate (String.ofList line))⟩

/-! ## Tags -/

/-- The content of a line that is the tag `@tag`, trimmed. -/
def tagContent? (tag line : String) : Option String :=
  match Text.after? ("@" ++ tag) line with
  | none => none
  | some rest =>
    match rest.toList with
    | [] => some ""
    | c :: _ => if Text.isBlank c then some (Text.trim rest) else none

def isDeprecatedTag (line : String) : Bool := (tagContent? "deprecated" line).isSome

/-- Whether a line is a tag other than `@deprecated`. -/
def isOtherTag (line : String) : Bool := Text.startsWith "@" line && !isDeprecatedTag line

/-- The index of the first tag other than `@deprecated`. -/
def firstTagLine? (doc : DocComment) : Option Nat := doc.lines.findIdx? isOtherTag

/-- The lines before the first tag, without `@deprecated` lines and empty lines around. Empty lines
inside separate paragraphs. -/
def summary (doc : DocComment) : List String :=
  dropEmptyEnds ((doc.lines.takeWhile (!isOtherTag ·)).filter (!isDeprecatedTag ·))

/-- Whether a word names a variable, so that no type stands before it. -/
def isVariableWord (word : String) : Bool :=
  Text.startsWith "$" word || Text.startsWith "...$" word || Text.startsWith "&$" word

/-- Drops repeated dots in threes. -/
def dropEllipses : List Char → List Char
  | '.' :: '.' :: '.' :: cs => dropEllipses cs
  | cs => cs

/-- A variable word without its marks. -/
def bareName (word : String) : String :=
  let cs := dropEllipses word.toList
  String.ofList ((cs.dropWhile (· == '&')).dropWhile (· == '$'))

/-- The tag whose content is made of these words. -/
def paramTag? : List String → Option ParamTag
  | [] => none
  | first :: rest =>
    if isVariableWord first then some ⟨"", bareName first, " ".intercalate rest⟩
    else some ⟨first, bareName (rest.head?.getD ""), " ".intercalate (rest.drop 1)⟩

/-- All `@param` tags in order; one without content is none. -/
def paramTags (doc : DocComment) : List ParamTag :=
  doc.lines.filterMap fun line => (tagContent? "param" line).bind fun content =>
    paramTag? (Text.words content)

/-- The first `@return` tag, if it has content. -/
def returnTag? (doc : DocComment) : Option ReturnTag :=
  match doc.lines.findIdx? fun line => (tagContent? "return" line).isSome with
  | none => none
  | some index =>
    let content := (doc.lines[index]?.bind (tagContent? "return")).getD ""
    match Text.words content with
    | [] => none
    | primary :: rest => some ⟨index, primary, " ".intercalate rest⟩

/-- The text of the first `@deprecated` tag. -/
def deprecated? (doc : DocComment) : Option String :=
  doc.lines.findSome? (tagContent? "deprecated")

end DocComment

end CurryGen

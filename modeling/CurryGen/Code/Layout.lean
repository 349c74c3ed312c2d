/-!
# Layout

Generated text is laid out as a list of marks: lines, and changes of the indentation between them.
-/

namespace CurryGen.Code

inductive Mark where
  | indent
  | dedent
  /-- An empty line. -/
  | blank
  | line (text : String)
deriving DecidableEq, Repr

/-- A line moved right by `depth` levels of four spaces. An empty line stays empty. -/
def indented (depth : Nat) (text : String) : String :=
  if text = "" then "" else String.ofList (List.replicate (4 * depth) ' ') ++ text

/-- The lines that marks lay out, from an indentation of `depth` levels on. -/
def linesFrom (depth : Nat) : List Mark → List String
  | [] => []
  | .indent :: marks => linesFrom (depth + 1) marks
  | .dedent :: marks => linesFrom (depth - 1) marks
  | .blank :: marks => "" :: linesFrom depth marks
  | .line text :: marks => indented depth text :: linesFrom depth marks

/-- The text of lines, each ended by a line feed. -/
def unlines (lines : List String) : String := String.join (lines.map (· ++ "\n"))

/-- The text that marks lay out. -/
def layout (marks : List Mark) : String := unlines (linesFrom 0 marks)

/-- Lines at one indentation. -/
def block (lines : List String) : List Mark := lines.map .line

/-- Marks between braces on lines of their own. -/
def braced (marks : List Mark) : List Mark :=
  .line "\x7b" :: .indent :: marks ++ [.dedent, .line "\x7d"]

end CurryGen.Code

import CurryGen.Text.Pieces

/-!
# Paths

Slash-separated paths as text. Joining and changing the extension keep the text as it was written;
only trailing slashes and trailing `.` components are dropped where the last component matters.
-/

namespace CurryGen

structure Path where
  text : String
deriving DecidableEq, Repr, Inhabited

namespace Path

/-- Whether the path starts at the root. -/
def isAbsolute (p : Path) : Bool := Text.startsWith "/" p.text

/-- The path `p` seen from the directory `base`. An absolute path stays as it is, and an empty base
adds nothing. -/
def join (base p : Path) : Path :=
  if p.isAbsolute then p
  else if base.text = "" ∨ base.text.toList.getLast? = some '/' then ⟨base.text ++ p.text⟩
  else ⟨base.text ++ "/" ++ p.text⟩

/-- Whether a piece between slashes, other than the first, stands for no component. -/
def isIdle (piece : String) : Bool := piece == "" || piece == "."

/-- The pieces between slashes up to the last component. The first piece is kept; it is empty for an
absolute path. -/
def pieces (p : Path) : List String :=
  match Text.splitAt '/' p.text with
  | [] => []
  | first :: rest => first :: (rest.reverse.dropWhile isIdle).reverse

/-- The path with these pieces between its slashes. -/
def ofPieces (pieces : List String) : Path := ⟨"/".intercalate pieces⟩

/-- The directory that holds the path, or `none` for the root and the empty path. -/
def parent? (p : Path) : Option Path :=
  match p.pieces with
  | [] | [""] => none
  | [_] => some ⟨""⟩
  | first :: rest =>
    match (rest.dropLast.reverse.dropWhile isIdle).reverse with
    | [] => some ⟨if first = "" then "/" else first⟩
    | rest => some (ofPieces (first :: rest))

/-- The last component, unless it is `.` or `..` or missing. -/
def fileName? (p : Path) : Option String :=
  match p.pieces.getLast? with
  | some name => if name = "" ∨ name = "." ∨ name = ".." then none else some name
  | none => none

/-- A file name without its extension; a leading dot does not start one. -/
def stem (name : String) : String :=
  match Text.splitAt '.' name with
  | [] | [_] | ["", _] => name
  | parts => ".".intercalate parts.dropLast

/-- The path with the extension of its last component replaced or added. A name such as `..x` at the
end of the text loses its extension first, and what is left of it is the directory above. -/
def withExtension (p : Path) (extension : String) : Path :=
  match p.fileName? with
  | none => p
  | some name =>
    let last := if stem name = "." ∧ (Text.before? name p.text).isSome then ".."
      else stem name ++ "." ++ extension
    ofPieces (p.pieces.dropLast ++ [last])

end Path

end CurryGen

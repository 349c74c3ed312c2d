import CurryGen.Path
import CurryGen.Text.Position

/-!
# Errors

Every way in which reading the inputs or writing the outputs can fail. An error names its cause;
the wording is in `Error.message` alone.
-/

namespace CurryGen

/-- Why a file operation failed. -/
inductive FileFault where
  | notFound
  | isADirectory
  | notADirectory
  | alreadyExists
  /-- The path names a directory that the system holds on to. -/
  | busy
  /-- A failure of the operating system that no rule here depends on. -/
  | other (description : String)
deriving DecidableEq, Repr

/-- What is wrong with a class or method declaration. -/
inductive Malformation where
  | noClassName
  | noMethodName
  | noParameters (method : String)
  | noBody (method : String)
  /-- A bracket that is never closed, or closed before it opens. -/
  | unbalanced
deriving DecidableEq, Repr

inductive Error where
  | file (path : Path) (fault : FileFault)
  /-- No token begins at this place. -/
  | unexpectedInput (path : Path) (place : Text.Position) (snippet : String)
  | malformed (path : Path) (place : Text.Position) (what : Malformation)
  /-- A class that the configuration names is missing from its file. -/
  | classNotFound (name : String) (path : Path)
  | duplicateFunction (name : String)
  | unknownFunction (name : String)
  /-- A function has no top-level `return` with a value. -/
  | missingReturn (name : String)
  /-- Functions delegate in a circle; the walk ends with the name that came back. -/
  | cyclicDelegation (chain : List String)
  | invalidConfiguration (path : Path)
deriving DecidableEq, Repr

def FileFault.message : FileFault → String
  | .notFound => "No such file or directory"
  | .isADirectory => "Is a directory"
  | .notADirectory => "Not a directory"
  | .alreadyExists => "File exists"
  | .busy => "Device or resource busy"
  | .other description => description

def Malformation.message : Malformation → String
  | .noClassName => "expected a class name"
  | .noMethodName => "expected a method name"
  | .noParameters method => s!"expected '(' after method '{method}'"
  | .noBody method => s!"expected a body for method '{method}'"
  | .unbalanced => "unbalanced delimiter"

/-- The line shown for an error. -/
def Error.message : Error → String
  | .file path fault => s!"I/O error on '{path.text}': {fault.message}"
  | .unexpectedInput path place snippet =>
    s!"{path.text}:{place.line}:{place.column}: unexpected input '{snippet}'"
  | .malformed path place what =>
    s!"{path.text}: {place.line}:{place.column}: {what.message}"
  | .classNotFound name path => s!"class '{name}' not found in '{path.text}'"
  | .duplicateFunction name => s!"template function '{name}' is declared more than once"
  | .unknownFunction name => s!"unknown template function '{name}'"
  | .missingReturn name =>
    s!"template function '{name}' has no top-level return statement with a value"
  | .cyclicDelegation chain =>
    "cyclic delegation between template functions: " ++ " -> ".intercalate chain
  | .invalidConfiguration path => s!"invalid configuration '{path.text}'"

end CurryGen

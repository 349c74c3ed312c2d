import CurryGen.Error

/-!
# File access

The file operations that the generator needs, in any monad that has them. An operation that fails
says why; the path it failed on becomes part of the error.

* `writeAtomic`: writing a file so that no reader sees a part of it.
-/

namespace CurryGen

/-- File operations in a monad. -/
class FileAccess (m : Type → Type) where
  read (path : Path) : m (Except FileFault String)
  /-- Writes a file in an existing directory, and replaces what a file there held. -/
  write (path : Path) (contents : String) : m (Except FileFault Unit)
  /-- Gives a file another path, and replaces a file there. -/
  rename (source target : Path) : m (Except FileFault Unit)
  remove (path : Path) : m (Except FileFault Unit)
  /-- Makes a directory and those above it, as far as they are missing. -/
  makeDirectories (path : Path) : m (Except FileFault Unit)

variable {m : Type → Type} [Monad m]

/-- An operation on a path whose failure is an error. -/
def attempt {α : Type} (path : Path) (operation : m (Except FileFault α)) : ExceptT Error m α :=
  ExceptT.mk (Except.mapError (Error.file path) <$> operation)

variable [FileAccess m]

/-- The contents of a file. -/
def readText (path : Path) : ExceptT Error m String := attempt path (FileAccess.read path)

/-- The extension of a file that is being written. -/
def temporaryExtension : String := "tmp"

/-- Makes the directory that is to hold a path. -/
def makeParent (path : Path) : ExceptT Error m Unit :=
  match path.parent? with
  | some parent =>
    if parent.text = "" then pure () else attempt parent (FileAccess.makeDirectories parent)
  | none => pure ()

/-- Gives a file its final path; where that fails the file is removed. -/
def moveInto (source target : Path) : ExceptT Error m Unit := ExceptT.mk do
  match ← FileAccess.rename source target with
  | .ok () => return .ok ()
  | .error fault =>
    let _ ← FileAccess.remove (m := m) source
    return .error (.file target fault)

/-- Writes a file under a temporary name beside its path and then renames it. Missing directories
are made. -/
def writeAtomic (path : Path) (contents : String) : ExceptT Error m Unit := do
  let temporary := path.withExtension temporaryExtension
  makeParent path
  attempt temporary (FileAccess.write temporary contents)
  moveInto temporary path

end CurryGen

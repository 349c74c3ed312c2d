import CurryGen.CommandLine.Run

/-!
# The program

Runs the command line on the files of the system.
-/

namespace CurryGen

/-- The fault that a failure of the system stands for. -/
def FileFault.ofIO : IO.Error → FileFault
  | .noFileOrDirectory .. => .notFound
  | .alreadyExists .. => .alreadyExists
  | .resourceBusy .. => .busy
  | .inappropriateType _ 20 _ => .notADirectory
  | .inappropriateType _ 21 _ => .isADirectory
  | e => .other (toString e)

/-- An action of the system with its failure as a value. -/
def tried {α : Type} (action : IO α) : IO (Except FileFault α) := do
  try
    return .ok (← action)
  catch e =>
    return .error (.ofIO e)

instance : FileAccess IO where
  read p := tried (IO.FS.readFile p.text)
  write p contents := tried (IO.FS.writeFile p.text contents)
  rename source target := tried (IO.FS.rename source.text target.text)
  remove p := tried (IO.FS.removeFile p.text)
  makeDirectories p := tried (IO.FS.createDirAll p.text)

end CurryGen

open CurryGen in
def main (args : List String) : IO UInt32 := do
  let outcome ← (CommandLine.run args : IO CommandLine.Outcome)
  outcome.output.forM IO.println
  outcome.errors.forM IO.eprintln
  return outcome.code.toUInt32

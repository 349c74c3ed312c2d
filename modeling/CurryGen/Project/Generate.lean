import CurryGen.Config.Yaml
import CurryGen.File.Access
import CurryGen.Project.Artifacts

/-!
# Generating

Reading a project's files, and writing or checking what it yields.

* `Config.load`: the configuration in a file.
* `Config.render`, `Config.generate`, `Config.check`, `Config.describe`: what can be done with a
  project. Nothing is written before everything is rendered.
-/

namespace CurryGen

variable {m : Type → Type} [Monad m] [FileAccess m]

/-- The declarations of a file. -/
def readSource (path : Path) : ExceptT Error m SourceFile := do
  let text ← readText path
  ExceptT.mk (pure (SourceFile.read path text))

namespace Config

/-- The configuration in a file, with paths seen from the directory of that file. -/
def load (path : Path) : ExceptT Error m Config := do
  let text ← readText path
  match ofYaml? text with
  | some c => return c.resolvedAgainst (path.parent?.getD ⟨""⟩)
  | none => throw (.invalidConfiguration path)

/-- The source files of a project. -/
def readSources (c : Config) : ExceptT Error m Sources := do
  let template ← readSource c.template.path
  let examples ← readSource c.examples.path
  let providers ← match c.providers with
    | some reference => some <$> readSource reference.path
    | none => pure none
  return { template, examples, providers }

/-- The generated files. -/
def render (c : Config) : ExceptT Error m (List Artifact) := do
  let sources ← c.readSources
  ExceptT.mk (pure (c.artifacts sources))

/-- Writes generated files into a directory; the result is their paths. -/
def writeAll (directory : Path) : List Artifact → ExceptT Error m (List Path)
  | [] => return []
  | artifact :: artifacts => do
    let path := directory.join ⟨artifact.fileName⟩
    writeAtomic path artifact.contents
    return path :: (← writeAll directory artifacts)

/-- Generates all files into a directory; the result is their paths. -/
def generate (c : Config) (directory : Path) : ExceptT Error m (List Path) := do
  writeAll directory (← c.render)

/-- How the files in a directory compare to what would be generated. -/
structure Report where
  /-- Files with other contents. -/
  stale : List Path := []
  missing : List Path := []
deriving DecidableEq, Repr

/-- Whether all files are up to date. -/
def Report.isClean (r : Report) : Bool := r.stale.isEmpty && r.missing.isEmpty

/-- Compares generated files with those in a directory. A file that cannot be read is an error
unless it is missing. -/
def compareAll (directory : Path) : List Artifact → ExceptT Error m Report
  | [] => return {}
  | artifact :: artifacts => do
    let path := directory.join ⟨artifact.fileName⟩
    match ← (FileAccess.read path : m (Except FileFault String)) with
    | .ok contents =>
      let rest ← compareAll directory artifacts
      return if contents = artifact.contents then rest else { rest with stale := path :: rest.stale }
    | .error .notFound =>
      let rest ← compareAll directory artifacts
      return { rest with missing := path :: rest.missing }
    | .error fault => throw (.file path fault)

/-- Compares what would be generated with the files in a directory. -/
def check (c : Config) (directory : Path) : ExceptT Error m Report := do
  compareAll directory (← c.render)

/-- The summaries of all functions. -/
def describe (c : Config) : ExceptT Error m (List FunctionSummary) := do
  let file ← readSource c.template.path
  ExceptT.mk (pure (c.summaries file))

end Config

end CurryGen

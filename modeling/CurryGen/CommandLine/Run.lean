import CurryGen.Code.Layout
import CurryGen.CommandLine.Arguments
import CurryGen.Project.Generate

/-!
# Running a request

What the program does for a request, what it writes to its output, and how it fails.

* `perform`: the effect of a request.
* `run`: the outcome for a list of arguments.
-/

namespace CurryGen.CommandLine

/-! ## Failures -/

/-- Why a request was not fulfilled. -/
inductive Failure where
  | loading (config : Path) (cause : Error)
  | rendering (cause : Error)
  | generating (directory : Path) (cause : Error)
  | checking (directory : Path) (cause : Error)
  | describing (cause : Error)
  /-- So many files are not up to date. -/
  | outOfDate (count : Nat)
deriving DecidableEq, Repr

namespace Failure

def message : Failure → String
  | loading config _ => s!"Failed to load configuration {config.text}"
  | rendering _ => "Failed to render artifacts"
  | generating directory _ => s!"Failed to generate into {directory.text}"
  | checking directory _ => s!"Failed to check {directory.text}"
  | describing _ => "Failed to read template functions"
  | outOfDate count =>
    s!"{count} artifact(s) out of date; run \x60cargo xtask generate\x60"

def cause? : Failure → Option Error
  | loading _ e | rendering e | generating _ e | checking _ e | describing e => some e
  | outOfDate _ => none

/-- The lines that tell of a failure. -/
def lines (f : Failure) : List String :=
  ("Error: " ++ f.message) ::
    match f.cause? with
    | some e => ["", "Caused by:", "    " ++ e.message]
    | none => []

end Failure

/-! ## Performing -/

/-- The lines written, and the failure, if there was one. -/
structure Result where
  output : List String := []
  failure : Option Failure := none
deriving DecidableEq, Repr

/-- What is said about a function in a list of functions. -/
def flags (s : FunctionSummary) : List String :=
  let f := s.function
  [s!"arity={f.arity}"] ++
  (if f.isVariadic then ["variadic"] else []) ++
  (f.collectionArgument?.map ("collection=$" ++ ·)).toList ++
  (if f.isDeprecated then ["deprecated"] else []) ++
  (if f.returnTypes.isEmpty then [] else ["returns=" ++ "|".intercalate f.returnTypes]) ++
  (if s.innerParams.isEmpty then [] else ["inner=(" ++ Param.list s.innerParams ++ ")"])

/-- A text with spaces added up to a width. -/
def padded (width : Nat) (text : String) : String :=
  text ++ String.ofList (List.replicate (width - text.length) ' ')

/-- The lines of a list of functions; names are padded to one width. -/
def table (summaries : List FunctionSummary) : List String :=
  let width := (summaries.map (·.function.name.utf8ByteSize)).foldl max 0
  summaries.map fun s => padded width s.function.name ++ "  " ++ " ".intercalate (flags s)

/-- The line about a file that would be written. -/
def plannedLine (directory : Path) (a : Artifact) : String :=
  let path := directory.join ⟨a.fileName⟩
  s!"would write {path.text} ({a.contents.utf8ByteSize} bytes)"

/-- The result of a check. -/
def checkResult (r : Config.Report) : Result :=
  let output := r.stale.map ("stale    " ++ ·.text) ++ r.missing.map ("missing  " ++ ·.text)
  if r.isClean then { output := output ++ ["all artifacts up to date"] }
  else { output, failure := some (.outOfDate (r.stale.length + r.missing.length)) }

variable {m : Type → Type} [Monad m] [FileAccess m]

/-- The result of an action that may fail. -/
def settle {α : Type} (action : ExceptT Error m α) (failure : Error → Failure) (done : α → Result) :
    m Result := do
  match ← action.run with
  | .ok a => return done a
  | .error e => return { failure := some (failure e) }

/-- Fulfils a request under the configuration it names. -/
def performWith (r : Request) (c : Config) : m Result :=
  let directory := r.output.getD c.output.directory
  match r.command, r.dryRun with
  | .generate, true =>
    settle c.render .rendering fun artifacts => { output := artifacts.map (plannedLine directory) }
  | .generate, false =>
    settle (c.generate directory) (.generating directory) fun paths =>
      { output := paths.map ("wrote " ++ ·.text) }
  | .check, _ => settle (c.check directory) (.checking directory) checkResult
  | .list, _ => settle c.describe .describing fun summaries => { output := table summaries }

/-- Fulfils a request. -/
def perform (r : Request) : m Result := do
  match ← (Config.load r.config : ExceptT Error m Config).run with
  | .ok c => performWith r c
  | .error e => return { failure := some (.loading r.config e) }

/-! ## Outcomes -/

/-- How the program ends. -/
structure Outcome where
  /-- The exit code: 0, or 1 after a failure, or 2 for arguments that make no request. -/
  code : Nat
  output : List String := []
  /-- The lines written to the error output. -/
  errors : List String := []
deriving DecidableEq, Repr

def usage : List String :=
  ["Usage: currygen [-v] generate [-c <file>] [-o <directory>] [--dry-run]",
   "       currygen [-v] check [-c <file>] [-o <directory>]",
   "       currygen [-v] list [-c <file>]"]

/-- The outcome of a fulfilled request or of a failure. -/
def Outcome.ofResult (r : Result) : Outcome :=
  match r.failure with
  | none => { code := 0, output := r.output }
  | some f => { code := 1, output := r.output, errors := f.lines }

/-- The outcome for a list of arguments. -/
def run (args : List String) : m Outcome :=
  match Request.ofArguments args with
  | .ok r => Outcome.ofResult <$> perform r
  | .error .help => return { code := 0, output := usage }
  | .error .usage => return { code := 2, errors := usage }

end CurryGen.CommandLine

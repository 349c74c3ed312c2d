import CurryGen.Path

/-!
# Arguments

What the arguments of the program ask for. Options may stand in any order after the command; a short
option may share its dash with others, and a value may follow directly, after `=`, or as the next
argument.

* `Request.ofArguments`: the request that a list of arguments makes.
-/

namespace CurryGen.CommandLine

/-- The commands of the program. -/
inductive Command where
  | generate
  | check
  | list
deriving DecidableEq, Repr

namespace Command

def all : List Command := [generate, check, list]

def name : Command → String
  | generate => "generate"
  | check => "check"
  | list => "list"

def ofName? (name : String) : Option Command := all.find? (·.name == name)

end Command

/-- The options of the commands. -/
inductive Flag where
  | config
  | output
  | dryRun
  | verbose
  | help
deriving DecidableEq, Repr

namespace Flag

def all : List Flag := [config, output, dryRun, verbose, help]

/-- The name after two dashes. -/
def long : Flag → String
  | config => "config"
  | output => "output"
  | dryRun => "dry-run"
  | verbose => "verbose"
  | help => "help"

/-- The letter after one dash. -/
def short? : Flag → Option Char
  | config => some 'c'
  | output => some 'o'
  | dryRun => none
  | verbose => some 'v'
  | help => some 'h'

def takesValue (f : Flag) : Bool := f == config || f == output

/-- Whether the option may stand after a command, or before any. -/
def isKnownTo (f : Flag) : Option Command → Bool
  | none => f == verbose || f == help
  | some .list => f != output && f != dryRun
  | some .check => f != dryRun
  | some .generate => true

end Flag

/-- What the program is to do. -/
structure Request where
  command : Command
  config : Path := ⟨"curryforge.yaml"⟩
  /-- The output directory, where it is not the configured one. -/
  output : Option Path := none
  /-- Whether files are only named and not written. -/
  dryRun : Bool := false
  /-- How often more messages were asked for. -/
  verbosity : Nat := 0
deriving DecidableEq, Repr

/-- Why arguments make no request. -/
inductive Refusal where
  /-- They ask for help. -/
  | help
  | usage
deriving DecidableEq, Repr

/-! ## Options -/

/-- The options read so far. -/
structure Options where
  config : Option Path := none
  output : Option Path := none
  dryRun : Bool := false
  verbosity : Nat := 0

namespace Options

/-- The options with one more that has a value. It must be its first, and not empty. -/
def withValue (o : Options) (f : Flag) (value : String) : Except Refusal Options :=
  if value = "" then .error .usage
  else match f, o.config, o.output with
    | .config, none, _ => .ok { o with config := some ⟨value⟩ }
    | .output, _, none => .ok { o with output := some ⟨value⟩ }
    | _, _, _ => .error .usage

/-- The options with one more that has no value. Only `verbose` may be repeated. -/
def withFlag (o : Options) (f : Flag) : Except Refusal Options :=
  match f, o.dryRun with
  | .help, _ => .error .help
  | .verbose, _ => .ok { o with verbosity := o.verbosity + 1 }
  | .dryRun, false => .ok { o with dryRun := true }
  | _, _ => .error .usage

/-- What an argument adds to the options: they are complete, or the next argument is the value of
one more. -/
inductive Step where
  | done (options : Options)
  | awaits (f : Flag) (options : Options)

/-- Reads the letters of short options. -/
def readLetters (command : Option Command) (o : Options) : List Char → Except Refusal Step
  | [] => .ok (.done o)
  | c :: cs =>
    match Flag.all.find? fun f => f.isKnownTo command && f.short? == some c with
    | none => .error .usage
    | some f =>
      if f.takesValue then
        match cs with
        | [] => .ok (.awaits f o)
        | '=' :: value => (o.withValue f (String.ofList value)).map .done
        | value => (o.withValue f (String.ofList value)).map .done
      else (o.withFlag f).bind fun o => readLetters command o cs

/-- Reads a long option, the dashes left out. -/
def readLong (command : Option Command) (o : Options) (text : List Char) : Except Refusal Step :=
  let name := String.ofList (text.takeWhile (· != '='))
  match Flag.all.find? fun f => f.isKnownTo command && f.long == name, text.dropWhile (· != '=') with
  | none, _ => .error .usage
  | some f, [] => if f.takesValue then .ok (.awaits f o) else (o.withFlag f).map .done
  | some f, _ :: value =>
    if f.takesValue then (o.withValue f (String.ofList value)).map .done else .error .usage

/-- Whether an argument is an option or the end of all options. -/
def isOption (arg : String) : Bool := Text.startsWith "-" arg && arg != "-"

/-- Reads options up to the first other argument, and returns what follows them. -/
def read (command : Option Command) (o : Options) : List String →
    Except Refusal (Options × List String)
  | [] => .ok (o, [])
  | arg :: args =>
    if !isOption arg || arg = "--" then .ok (o, arg :: args)
    else
      let step := match arg.toList with
        | '-' :: '-' :: text => readLong command o text
        | text => readLetters command o (text.drop 1)
      match step, args with
      | .error refusal, _ => .error refusal
      | .ok (.done o), args => read command o args
      | .ok (.awaits _ _), [] => .error .usage
      | .ok (.awaits f o), value :: args =>
        if isOption value then .error .usage
        else match o.withValue f value with
          | .error refusal => .error refusal
          | .ok o => read command o args

end Options

/-! ## Requests -/

namespace Request

/-- The request of a command with these options. -/
def ofOptions (command : Command) (o : Options) : Request :=
  let base : Request := { command }
  { base with
    config := o.config.getD base.config
    output := o.output, dryRun := o.dryRun, verbosity := o.verbosity }

/-- Whether the arguments after `help` name at most one command. -/
def asksForHelp : List String → Bool
  | [] => true
  | [name] => name == "help" || (Command.ofName? name).isSome
  | _ => false

/-- The request that a list of arguments makes. -/
def ofArguments (args : List String) : Except Refusal Request :=
  match Options.read none {} args with
  | .error refusal => .error refusal
  | .ok (_, []) => .error .usage
  | .ok (o, name :: args) =>
    match Command.ofName? name with
    | none => .error (if name = "help" ∧ asksForHelp args then .help else .usage)
    | some command =>
      match Options.read (some command) o args with
      | .error refusal => .error refusal
      | .ok (o, []) | .ok (o, ["--"]) => .ok (ofOptions command o)
      | .ok _ => .error .usage

end Request

end CurryGen.CommandLine

import CurryGen.Yaml.Scalar
import CurryGen.Yaml.Tag

/-!
# YAML tokens

The tokens of a text: scalars, indicators, and the start and end of each collection. A block
collection starts where content stands further right than that of the collection around it, and ends
where content stands further left. Whether a scalar is a key is only known at the colon after it;
the key and a new mapping are then put before it.

* `Token.ofText?`: the tokens of a text.
-/

namespace CurryGen.Yaml

inductive Token where
  /-- The directive that states a version. -/
  | version (major minor : Nat)
  /-- The directive that defines a tag handle. -/
  | tagHandle (handle uri : String)
  | documentStart
  | documentEnd
  | blockSequence
  | blockMapping
  | blockEnd
  | flowSequence
  | flowSequenceEnd
  | flowMapping
  | flowMappingEnd
  /-- The dash before an item of a block sequence. -/
  | entry
  /-- The comma between items of a flow collection. -/
  | separator
  | key
  | value
  /-- An alias, which stands for the node with that anchor. -/
  | reference (name : String)
  | anchor (name : String)
  | tag (handle suffix : String)
  | scalar (text : String) (plain : Bool)
deriving DecidableEq, Repr

namespace Token

/-! ## Layout -/

/-- A token that turns out to be a key if a colon follows on its line. -/
structure Candidate where
  /-- The number of tokens before it. -/
  index : Nat
  line : Nat
  column : Nat
  /-- Whether nothing but a key can stand there. -/
  required : Bool

/-- What has been read of a text. -/
structure Layout where
  tokens : Array Token := #[]
  /-- For each open block collection, innermost first, the least column of content inside it. -/
  margins : List Nat := []
  /-- The possible key of the block context and of each open flow collection, innermost first. -/
  candidates : List (Option Candidate) := [none]
  /-- Whether a key may start here. -/
  keyAllowed : Bool := true

namespace Layout

/-- Whether a flow collection is open. -/
def inFlow (l : Layout) : Bool := l.candidates.length > 1

/-- The least column of content inside the innermost block collection. -/
def margin (l : Layout) : Nat := l.margins.headD 0

def push (l : Layout) (t : Token) : Layout := { l with tokens := l.tokens.push t }

def allowKey (l : Layout) (allowed : Bool) : Layout := { l with keyAllowed := allowed }

/-- The candidate of the innermost context. -/
def candidate (l : Layout) : Option Candidate := l.candidates.head?.join

/-- Replaces the candidate of the innermost context. -/
def setCandidate (l : Layout) (c : Option Candidate) : Layout :=
  { l with candidates := c :: l.candidates.drop 1 }

/-- Ends the block collections whose content is further right than `column`. -/
def close (l : Layout) (column : Nat) : Layout :=
  if l.inFlow then l
  else
    let ended := l.margins.takeWhile (· > column + 1)
    { l with
      tokens := l.tokens ++ ended.map fun _ => blockEnd
      margins := l.margins.drop ended.length }

/-- Starts a block collection at `column` with the token `start`, placed before the token of the
given index, unless one is open there. -/
def openAt (l : Layout) (column index : Nat) (start : Token) : Layout :=
  if l.inFlow || column < l.margin then l
  else { l with
    tokens := l.tokens.insertIdxIfInBounds index start
    margins := (column + 1) :: l.margins }

/-- Gives up the candidate of the innermost context; one that had to be a key is an error. -/
def dropCandidate? (l : Layout) : Option Layout :=
  if l.candidate.any (·.required) then none else some (l.setCandidate none)

/-- Makes the token that follows at `s` a candidate, where a key may start. -/
def markCandidate? (l : Layout) (s : Spot) : Option Layout :=
  if l.keyAllowed then
    l.dropCandidate?.map fun l => l.setCandidate
      (some ⟨l.tokens.size, s.line, s.column, !l.inFlow && l.margin == s.column + 1⟩)
  else some l

/-- The length of the longest key. -/
def maxKeyLength : Nat := 1024

/-- Whether a colon at `s` comes too late for a candidate. -/
def Candidate.isStale (c : Candidate) (s : Spot) : Bool :=
  c.line < s.line || c.column + maxKeyLength < s.column

/-- Gives up the candidates that a colon at `s` comes too late for. -/
def dropStale? (l : Layout) (s : Spot) : Option Layout :=
  if l.candidates.any fun c => c.any fun c => c.required && Candidate.isStale c s then none
  else some { l with candidates := l.candidates.map fun c => c.filter (!Candidate.isStale · s) }

end Layout

/-! ## Between tokens -/

/-- Whether a character between tokens is passed over, comments and line breaks aside. Where a key may
start in a block context, tabs are not. -/
def isFiller (flow keyAllowed : Bool) (s : Spot) : Bool :=
  s.char == ' ' || (s.char == '\t' && (flow || !keyAllowed)) ||
    (s.char == byteOrderMark && s.column == 0)

/-- Passes over filler, comments and line breaks. After a line break in a block context a key may
start. -/
def skip (flow keyAllowed comment : Bool) : List Spot → Bool × List Spot
  | [] => (keyAllowed, [])
  | s :: ss =>
    if isBreak s.char then skip flow (keyAllowed || !flow) false ss
    else if comment || isFiller flow keyAllowed s then skip flow keyAllowed comment ss
    else if s.char == '#' then skip flow keyAllowed true ss
    else (keyAllowed, s :: ss)

/-! ## Names, tags and directives -/

/-- The longest word and what follows it. -/
def word (ss : List Spot) : String × List Spot :=
  (String.ofList (textOf (ss.takeWhile (isWordChar ·.char))), ss.dropWhile (isWordChar ·.char))

/-- Whether an anchor or alias may end here. -/
def endsName : List Spot → Bool
  | [] => true
  | s :: ss => atWordEnd (s :: ss) || "?:,]\x7d%@\x60".toList.contains s.char

/-- Reads the name of an anchor or alias. -/
def name? (ss : List Spot) : Option (String × List Spot) :=
  let (name, rest) := word ss
  if name ≠ "" ∧ endsName rest then some (name, rest) else none

/-- Reads what follows the exclamation mark of a tag: its handle and its suffix. -/
def tagParts? (ss : List Spot) : Option (Token × List Spot) :=
  if ss.head?.any (·.char == '<') then do
    let uri ← tagText? true (ss.drop 1)
    guard (!uri.isEmpty && uri.rest.head?.any (·.char == '>'))
    return (.tag "" uri.text, uri.rest.drop 1)
  else do
    let (name, afterName) := word ss
    if afterName.head?.any (·.char == '!') then
      let suffix ← tagText? false (afterName.drop 1)
      guard !suffix.isEmpty
      return (.tag ("!" ++ name ++ "!") suffix.text, suffix.rest)
    else
      let suffix ← tagText? false ss
      return (if suffix.text = "" then .tag "" "!" else .tag "!" suffix.text, suffix.rest)

/-- Reads a tag after its exclamation mark. -/
def tag? (flow : Bool) (ss : List Spot) : Option (Token × List Spot) :=
  match tagParts? ss with
  | some (t, rest) =>
    if atWordEnd rest || (flow && rest.head?.any (·.char == ',')) then some (t, rest) else none
  | none => none

/-- Reads a number of at most nine digits. -/
def versionNumber? (ss : List Spot) : Option (Nat × List Spot) :=
  let digits := textOf (ss.takeWhile (·.char.isDigit))
  if digits ≠ [] ∧ digits.length ≤ 9 then
    some (Number.ofDigits 10 digits, ss.dropWhile (·.char.isDigit))
  else none

/-- Reads a directive after its percent sign, up to the end of its line. -/
def directive? (ss : List Spot) : Option (Token × List Spot) := do
  let (name, rest) := word ss
  guard (atWordEnd rest)
  let rest := rest.dropWhile (isSpace ·.char)
  if name = "YAML" then
    let (major, rest) ← versionNumber? rest
    guard (rest.head?.any (·.char == '.'))
    let (minor, rest) ← versionNumber? (rest.drop 1)
    return (.version major minor, ← lineEnd? rest)
  else if name = "TAG" then
    guard (rest.head?.any (·.char == '!'))
    let (inner, rest) := word (rest.drop 1)
    let closed := rest.head?.any (·.char == '!')
    guard (closed || inner = "")
    let rest := if closed then rest.drop 1 else rest
    guard (rest.head?.any (isSpace ·.char))
    let uri ← tagText? true (rest.dropWhile (isSpace ·.char))
    guard (!uri.isEmpty && atWordEnd uri.rest)
    return (.tagHandle ("!" ++ inner ++ (if closed then "!" else "")) uri.text, ← lineEnd? uri.rest)
  else none

/-! ## One token -/

/-- What has been read after a token, and the rest. -/
abbrev Step := Option (Layout × List Spot)

/-- Ends all block collections, as the start or the end of a document does. -/
def endDocument? (l : Layout) : Option Layout :=
  (if l.inFlow then l else
    { l with tokens := l.tokens ++ l.margins.map fun _ => blockEnd, margins := [] }).dropCandidate?.map
    (·.allowKey false)

/-- A token at the margin that begins or ends a document. -/
def documentToken (l : Layout) (t : Token) (rest : List Spot) : Step :=
  (endDocument? l).map fun l => (l.push t, rest)

/-- The bracket that opens a flow collection. -/
def openFlow (l : Layout) (s : Spot) (t : Token) (rest : List Spot) : Step :=
  (l.markCandidate? s).map fun l =>
    (({ l with candidates := none :: l.candidates }.allowKey true).push t, rest)

/-- The bracket that closes a flow collection. -/
def closeFlow (l : Layout) (t : Token) (rest : List Spot) : Step :=
  l.dropCandidate?.map fun l =>
    let l := if l.inFlow then { l with candidates := l.candidates.drop 1 } else l
    ((l.allowKey false).push t, rest)

/-- The comma between items. -/
def flowSeparator (l : Layout) (rest : List Spot) : Step :=
  l.dropCandidate?.map fun l => ((l.allowKey true).push separator, rest)

/-- The dash before an item. -/
def blockEntry (l : Layout) (s : Spot) (rest : List Spot) : Step :=
  if !l.inFlow && !l.keyAllowed then none
  else (l.openAt s.column l.tokens.size blockSequence).dropCandidate?.map fun l =>
    ((l.allowKey true).push entry, rest)

/-- The question mark before a key. -/
def explicitKey (l : Layout) (s : Spot) (rest : List Spot) : Step :=
  if !l.inFlow && !l.keyAllowed then none
  else (l.openAt s.column l.tokens.size blockMapping).dropCandidate?.map fun l =>
    ((l.allowKey !l.inFlow).push key, rest)

/-- The colon before a value. A candidate becomes a key. -/
def valueMark (l : Layout) (s : Spot) (rest : List Spot) : Step :=
  match l.candidate with
  | some c =>
    let l := { l with tokens := l.tokens.insertIdxIfInBounds c.index key }
    let l := (l.openAt c.column c.index blockMapping).setCandidate none
    some ((l.allowKey false).push value, rest)
  | none =>
    if !l.inFlow && !l.keyAllowed then none
    else
      let l := l.openAt s.column l.tokens.size blockMapping
      some ((l.allowKey !l.inFlow).push value, rest)

/-- An alias, anchor or tag, which may begin a key. -/
def property (l : Layout) (s : Spot) (read : Option (Token × List Spot)) : Step := do
  let l ← l.markCandidate? s
  let (t, rest) ← read
  return ((l.allowKey false).push t, rest)

/-- A scalar, which may be a key. A plain scalar that a line break ends lets a key follow. -/
def flowScalar (l : Layout) (s : Spot) (plain : Bool) (read : Option Scalar) : Step := do
  let l ← l.markCandidate? s
  let r ← read
  return ((l.allowKey r.broken).push (.scalar (String.ofList r.text) plain), r.rest)

/-- A block scalar, which is no key. -/
def blockScalar (l : Layout) (read : Option Scalar) : Step := do
  let l ← l.dropCandidate?
  let r ← read
  return ((l.allowKey true).push (.scalar (String.ofList r.text) false), r.rest)

/-- Whether a plain scalar may start with a character, indicators with a rule of their own aside. A
tab that was not passed over is no start. -/
def startsPlain (flow : Bool) (c : Char) : Bool :=
  c == '-' || (!flow && (c == '?' || c == ':')) ||
    !(isSpace c || "?:,[]\x7b\x7d#&*!|>'\"%@\x60".toList.contains c)

/-- Reads the token at `s`; `ss` is what follows `s`. -/
def step (l : Layout) (s : Spot) (ss : List Spot) : Step :=
  let flow := l.inFlow
  if s.column = 0 ∧ s.char = '%' then
    match directive? ss with
    | some (t, rest) => documentToken l t rest
    | none => none
  else if atMarker '-' (s :: ss) then documentToken l documentStart (ss.drop 2)
  else if atMarker '.' (s :: ss) then documentToken l documentEnd (ss.drop 2)
  else match s.char with
    | '[' => openFlow l s flowSequence ss
    | '\x7b' => openFlow l s flowMapping ss
    | ']' => closeFlow l flowSequenceEnd ss
    | '\x7d' => closeFlow l flowMappingEnd ss
    | ',' => flowSeparator l ss
    | '*' => property l s ((name? ss).map fun (n, rest) => (.reference n, rest))
    | '&' => property l s ((name? ss).map fun (n, rest) => (.anchor n, rest))
    | '!' => property l s (tag? flow ss)
    | '\'' => flowScalar l s false (quoted '\'' {} ss)
    | '"' => flowScalar l s false (quoted '"' {} ss)
    | c =>
      if c == '-' && atWordEnd ss then blockEntry l s ss
      else if c == '?' && (flow || atWordEnd ss) then explicitKey l s ss
      else if c == ':' && (flow || atWordEnd ss) then valueMark l s ss
      else if (c == '|' || c == '>') && !flow then blockScalar l (block (c == '|') l.margin ss)
      else if startsPlain flow c then flowScalar l s true (plain flow l.margin {} (s :: ss))
      else none

/-! ## All tokens -/

/-- The tokens that end a text. -/
def finish? (l : Layout) : Option (List Token) :=
  if l.candidates.any fun c => c.any (·.required) then none
  else some (l.tokens ++ l.margins.map fun _ => blockEnd).toList

/-- The tokens of a text from here on. A token that took nothing would be no progress and is
refused. -/
def readFrom (l : Layout) (ss : List Spot) : Option (List Token) :=
  match skip l.inFlow l.keyAllowed false ss with
  | (_, []) => finish? l
  | (keyAllowed, s :: rest) =>
    match ((l.allowKey keyAllowed).dropStale? s).bind fun l => step (l.close s.column) s rest with
    | none => none
    | some (l, after) => if after.length < ss.length then readFrom l after else none
termination_by ss.length

/-- The tokens of a text. -/
def ofText? (text : String) : Option (List Token) := (spots? text).bind (readFrom {})

end Token

end CurryGen.Yaml

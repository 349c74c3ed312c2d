import CurryGen.Yaml.Token

/-!
# Written nodes

The tree that the tokens of a document describe: scalars, sequences and mappings as they are written,
with their anchors and aliases. An anchor takes a slot. The slot is the number of different names
that anchors had before, so a name that is used again shares its new slot with the next new name. An
alias refers to the slot that its name has when the alias is read.

* `Written.ofTokens?`: the root of the only document among tokens.
* `Written.anchors`: the anchored nodes in the order in which they are written.
-/

namespace CurryGen.Yaml

inductive Written where
  /-- A scalar; `plain` scalars may spell other values than texts. -/
  | scalar (text : String) (plain : Bool) (tag : Option String)
  | sequence (items : List Written)
  | mapping (entries : List (Written × Written))
  | anchored (slot : Nat) (node : Written)
  /-- An alias. -/
  | reference (slot : Nat)
deriving Inhabited

namespace Written

/-- The node where nothing is written. -/
def empty : Written := .scalar "" true none

/-! ## Anchors -/

mutual

/-- The anchored nodes with their slots, outer ones first. -/
def anchors : Written → List (Nat × Written)
  | .scalar .. | .reference _ => []
  | .sequence items => itemAnchors items
  | .mapping entries => entryAnchors entries
  | .anchored slot node => (slot, node) :: node.anchors

def itemAnchors : List Written → List (Nat × Written)
  | [] => []
  | item :: items => item.anchors ++ itemAnchors items

def entryAnchors : List (Written × Written) → List (Nat × Written)
  | [] => []
  | (key, value) :: entries => key.anchors ++ value.anchors ++ entryAnchors entries

end

mutual

/-- The number of marks that make up a node: one for a scalar or an alias, and two for the start and
the end of a collection. -/
def marks : Written → Nat
  | .scalar .. | .reference _ => 1
  | .sequence items => 2 + itemMarks items
  | .mapping entries => 2 + entryMarks entries
  | .anchored _ node => node.marks

def itemMarks : List Written → Nat
  | [] => 0
  | item :: items => item.marks + itemMarks items

def entryMarks : List (Written × Written) → Nat
  | [] => 0
  | (key, value) :: entries => key.marks + value.marks + entryMarks entries

end

/-! ## Reading tokens -/

/-- What is known while tokens are read. -/
structure Reading where
  rest : List Token
  /-- The slots of the anchor names so far; each name stands once. -/
  slots : List (String × Nat) := []

/-- An action that reads tokens, or fails. -/
abbrev Reader := StateT Reading Option

/-- The next token. -/
def peek : Reader (Option Token) := return (← get).rest.head?

/-- Passes over the next token. -/
def advance : Reader Unit := modify fun r => { r with rest := r.rest.drop 1 }

/-- Whether the next token is one of `ts`. -/
def nextIn (ts : List Token) : Reader Bool := return (← peek).any ts.contains

/-- Gives an anchor name the next slot. -/
def claim (name : String) : Reader Nat := do
  let slots := (← get).slots
  modify fun r => { r with slots := (name, slots.length) :: slots.filter (·.1 != name) }
  return slots.length

/-- A node with an anchor, if there is one. The anchor takes its slot before the node is read. -/
def withAnchor (anchor : Option String) (content : Reader Written) : Reader Written := do
  match anchor with
  | some name =>
    let slot ← claim name
    return .anchored slot (← content)
  | none => content

/-- The alias of a name that an anchor has. -/
def resolve (name : String) : Reader Written := do
  match (← get).slots.lookup name with
  | some slot => return .reference slot
  | none => failure

/-! ## Properties -/

/-- The namespace of the tags that the short handle stands for. -/
def standardTag (name : String) : String := "tag:yaml.org,2002:" ++ name

/-- The tag handles that need no definition. -/
def standardHandles : List (String × String) := [("!", "!"), ("!!", standardTag "")]

/-- The tag that a handle and a suffix name. -/
def tagOf? (handles : List (String × String)) (handle suffix : String) : Option String :=
  if handle = "" then some suffix
  else (handles.lookup handle).map (· ++ suffix)

/-- Reads an anchor, if one is next. -/
def anchor? : Reader (Option String) := do
  match ← peek with
  | some (.anchor name) => advance; return some name
  | _ => return none

/-- Reads a tag, if one is next. -/
def tag? (handles : List (String × String)) : Reader (Option String) := do
  match ← peek with
  | some (.tag handle suffix) =>
    advance
    match tagOf? handles handle suffix with
    | some tag => return some tag
    | none => failure
  | _ => return none

/-- The properties of a node. -/
structure Properties where
  anchor : Option String
  tag : Option String

/-- Reads an anchor and a tag, in either order. -/
def properties (handles : List (String × String)) : Reader Properties := do
  match ← anchor? with
  | some name => return ⟨some name, ← tag? handles⟩
  | none =>
    match ← tag? handles with
    | some tag => return ⟨← anchor?, some tag⟩
    | none => return ⟨none, none⟩

/-! ## Nodes -/

/-- The contexts of a node, which decide which collections may start there. -/
inductive Context where
  | flow
  | block
  /-- The value of a mapping, where a sequence need not be indented. -/
  | mappingValue
deriving DecidableEq

mutual

/-- Reads a node. The first argument bounds the number of steps. -/
def node (steps : Nat) (handles : List (String × String)) (context : Context) : Reader Written := do
  match steps with
  | 0 => failure
  | steps + 1 =>
    match ← peek with
    | some (.reference name) => advance; resolve name
    | _ =>
      let p ← properties handles
      let named := withAnchor p.anchor
      match ← peek with
      | some (.scalar text plain) =>
        advance
        named (return .scalar text plain p.tag)
      | some .flowSequence =>
        advance
        named (return .sequence (← flowItems steps handles true))
      | some .flowMapping =>
        advance
        named (return .mapping (← flowEntries steps handles true))
      | some .entry =>
        if context = .mappingValue then
          named (return .sequence (← looseItems steps handles))
        else if p.anchor.isSome || p.tag.isSome then named (return .scalar "" true p.tag)
        else failure
      | some .blockSequence =>
        if context = .flow then failure
        else
          advance
          named (return .sequence (← blockItems steps handles))
      | some .blockMapping =>
        if context = .flow then failure
        else
          advance
          named (return .mapping (← blockEntries steps handles))
      | _ =>
        if p.anchor.isSome || p.tag.isSome then named (return .scalar "" true p.tag) else failure

/-- Reads a node, or the empty one if a token of `ends` is next. -/
def nodeUnless (steps : Nat) (handles : List (String × String)) (ends : List Token)
    (context : Context) : Reader Written := do
  match steps with
  | 0 => failure
  | steps + 1 => if ← nextIn ends then return empty else node steps handles context

/-- Reads the items of a block sequence up to its end. -/
def blockItems (steps : Nat) (handles : List (String × String)) : Reader (List Written) := do
  match steps with
  | 0 => failure
  | steps + 1 =>
    match ← peek with
    | some .entry =>
      advance
      let item ← nodeUnless steps handles [.entry, .blockEnd] .block
      return item :: (← blockItems steps handles)
    | some .blockEnd => advance; return []
    | _ => failure

/-- Reads the items of a block sequence that is not indented. -/
def looseItems (steps : Nat) (handles : List (String × String)) : Reader (List Written) := do
  match steps with
  | 0 => failure
  | steps + 1 =>
    match ← peek with
    | some .entry =>
      advance
      let item ← nodeUnless steps handles [.entry, .key, .value, .blockEnd] .block
      return item :: (← looseItems steps handles)
    | _ => return []

/-- Reads the entries of a block mapping up to its end. -/
def blockEntries (steps : Nat) (handles : List (String × String)) :
    Reader (List (Written × Written)) := do
  match steps with
  | 0 => failure
  | steps + 1 =>
    match ← peek with
    | some .key =>
      advance
      let key ← nodeUnless steps handles [.key, .value, .blockEnd] .mappingValue
      let value ← valueUnless steps handles [.key, .value, .blockEnd] .mappingValue
      return (key, value) :: (← blockEntries steps handles)
    | some .blockEnd => advance; return []
    | _ => failure

/-- Reads the value after a key; without a colon it is empty. -/
def valueUnless (steps : Nat) (handles : List (String × String)) (ends : List Token)
    (context : Context) : Reader Written := do
  match steps with
  | 0 => failure
  | steps + 1 =>
    if (← peek) == some .value then
      advance
      nodeUnless steps handles ends context
    else return empty

/-- Reads the items of a flow sequence up to its end. An item may be a mapping of one entry. -/
def flowItems (steps : Nat) (handles : List (String × String)) (first : Bool) :
    Reader (List Written) := do
  match steps with
  | 0 => failure
  | steps + 1 =>
    if (← peek) == some .flowSequenceEnd then advance; return []
    else
      unless first do
        guard ((← peek) == some .separator)
        advance
      match ← peek with
      | some .flowSequenceEnd => advance; return []
      | some .key =>
        advance
        let key ← nodeUnless steps handles [.value, .separator, .flowSequenceEnd] .flow
        let value ← valueUnless steps handles [.separator, .flowSequenceEnd] .flow
        return .mapping [(key, value)] :: (← flowItems steps handles false)
      | _ =>
        let item ← node steps handles .flow
        return item :: (← flowItems steps handles false)

/-- Reads the entries of a flow mapping up to its end. -/
def flowEntries (steps : Nat) (handles : List (String × String)) (first : Bool) :
    Reader (List (Written × Written)) := do
  match steps with
  | 0 => failure
  | steps + 1 =>
    if (← peek) == some .flowMappingEnd then advance; return []
    else
      unless first do
        guard ((← peek) == some .separator)
        advance
      match ← peek with
      | some .flowMappingEnd => advance; return []
      | some .key =>
        advance
        let key ← nodeUnless steps handles [.value, .separator, .flowMappingEnd] .flow
        let value ← valueUnless steps handles [.separator, .flowMappingEnd] .flow
        return (key, value) :: (← flowEntries steps handles false)
      | _ =>
        let key ← node steps handles .flow
        return (key, empty) :: (← flowEntries steps handles false)

end

/-! ## Documents -/

/-- Whether a version is known. -/
def isKnownVersion (major minor : Nat) : Bool := major == 1 && (minor == 1 || minor == 2)

/-- Reads directives: the version at most once, and each tag handle at most once. The result is the
handles and what follows. -/
def directives? (versioned : Bool) (handles : List (String × String)) :
    List Token → Option (List (String × String) × List Token)
  | .version major minor :: rest =>
    if versioned || !isKnownVersion major minor then none else directives? true handles rest
  | .tagHandle handle uri :: rest =>
    if (handles.lookup handle).isSome then none
    else directives? versioned ((handle, uri) :: handles) rest
  | rest => some (handles, rest)

/-- Whether a document starts with a marker or with directives. -/
def isExplicit : Token → Bool
  | .version .. | .tagHandle .. | .documentStart => true
  | _ => false

/-- Whether a token ends the content of a document before it began. -/
def endsDocument (t : Token) : Bool := isExplicit t || t == .documentEnd

/-- The root of a document whose content starts here, and what follows it. -/
def root? (handles : List (String × String)) (ts : List Token) : Option (Written × List Token) :=
  (node (2 * ts.length + 2) (handles ++ standardHandles) .block { rest := ts }).map
    fun (n, r) => (n, r.rest)

/-- The root of the first document and what follows it. -/
def document? (ts : List Token) : Option (Written × List Token) :=
  if ts.head?.any isExplicit then
    match directives? false [] ts with
    | some (handles, .documentStart :: rest) =>
      if rest.head?.all endsDocument then some (empty, rest) else root? handles rest
    | _ => none
  else root? [] ts

/-- The root of the only document, or of none if there is no token. -/
def ofTokens? (ts : List Token) : Option (Option Written) :=
  if ts.isEmpty then some none
  else match document? ts with
    | some (n, rest) => if rest.all (· == .documentEnd) then some (some n) else none
    | none => none

end Written

end CurryGen.Yaml

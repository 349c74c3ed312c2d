import CurryGen.Number.Integer
import CurryGen.Yaml.Spot

/-!
# Scalars

The scalar styles: plain, single and double quoted, literal and folded. Each reader gets what
follows the indicator of its style and returns the text of the scalar and the rest.

* `Gap.fold`: what a gap between two words stands for; line breaks in it are folded.
* `plain`, `quoted`, `block`: the readers.
-/

namespace CurryGen.Yaml

/-! ## Gaps -/

/-- A gap between two words of a scalar. -/
structure Gap where
  /-- The spaces before the first line break. -/
  spaces : List Char := []
  /-- Whether there is a line break. -/
  broken : Bool := false
  /-- The first line break, unless it is escaped. -/
  first : Option Char := none
  /-- The line breaks after the first. -/
  more : List Char := []

namespace Gap

def isEmpty (g : Gap) : Bool := g.spaces.isEmpty && !g.broken

/-- The gap with one more space or line break. Spaces after a line break do not count. -/
def push (g : Gap) (c : Char) : Gap :=
  if isBreak c then
    if g.broken then { g with more := g.more ++ [c] } else { g with broken := true, first := some c }
  else if g.broken then g
  else { g with spaces := g.spaces ++ [c] }

/-- The gap that an escaped line break opens. -/
def escaped : Gap := { broken := true }

/-- What the gap stands for: a single line feed is a space, and of several the first is dropped. -/
def fold (g : Gap) : List Char :=
  match g.broken, g.first, g.more with
  | false, _, _ => g.spaces
  | true, none, more => more
  | true, some '\n', [] => [' ']
  | true, some '\n', more => more
  | true, some c, more => c :: more

end Gap

/-! ## Plain scalars -/

/-- The characters that delimit flow collections and their entries. -/
def isFlowDelimiter (c : Char) : Bool :=
  c == ',' || c == '[' || c == ']' || c == '\x7b' || c == '\x7d'

/-- Whether a plain scalar ends before `s`, which follows `gap`. Content of a block must be at least
at column `margin`. -/
def endsPlain (flow : Bool) (margin : Nat) (gap : Gap) (s : Spot) (ss : List Spot) : Bool :=
  (!gap.isEmpty && (atAnyMarker (s :: ss) || s.char == '#' || (!flow && s.column < margin)))
    || (s.char == ':' && atWordEnd ss) || (flow && isFlowDelimiter s.char)

/-- A scalar that was read. -/
structure Scalar where
  text : List Char
  /-- What follows it. -/
  rest : List Spot
  /-- Whether a line break lies between the scalar and the rest. -/
  broken : Bool := false

/-- Reads a plain scalar; `gap` is what was passed over since its last word. In a flow collection a
colon must not stand before a delimiter, and a tab must not stand for indentation. -/
def plain (flow : Bool) (margin : Nat) (gap : Gap) : List Spot → Option Scalar
  | [] => some ⟨[], [], gap.broken⟩
  | s :: ss =>
    if isSpace s.char || isBreak s.char then
      if gap.broken && s.column < margin && s.char == '\t' then none
      else plain flow margin (gap.push s.char) ss
    else if endsPlain flow margin gap s ss then some ⟨[], s :: ss, gap.broken⟩
    else if flow && s.char == ':' &&
        ss.head?.any (fun t => isFlowDelimiter t.char || t.char == '?') then none
    else (plain flow margin {} ss).map fun r => { r with text := gap.fold ++ s.char :: r.text }

/-! ## Quoted scalars -/

/-- The character that a letter stands for after a backslash. -/
def escape? : Char → Option Char
  | '0' => some '\x00'
  | 'a' => some '\x07'
  | 'b' => some '\x08'
  | 't' => some '\t'
  | '\t' => some '\t'
  | 'n' => some '\n'
  | 'v' => some '\x0b'
  | 'f' => some '\x0c'
  | 'r' => some '\r'
  | 'e' => some '\x1b'
  | ' ' => some ' '
  | '"' => some '"'
  | '/' => some '/'
  | '\\' => some '\\'
  | 'N' => some '\u0085'
  | '_' => some '\u00a0'
  | 'L' => some '\u2028'
  | 'P' => some '\u2029'
  | _ => none

/-- The number of hexadecimal digits after the letter of a numeric escape. -/
def escapeWidth? : Char → Option Nat
  | 'x' => some 2
  | 'u' => some 4
  | 'U' => some 8
  | _ => none

/-- The character of a code given by `width` hexadecimal digits. -/
def charOfDigits? (width : Nat) (cs : List Char) : Option Char :=
  let n := Number.ofDigits 16 cs
  if cs.length = width ∧ cs.all (fun c => (Number.digitValue? c).isSome) ∧ n.isValidChar then
    some (Char.ofNat n)
  else none

/-- Reads a quoted scalar; `gap` is what was passed over since its last word. -/
def quoted (quote : Char) (gap : Gap) : List Spot → Option Scalar
  | [] => none
  | s :: ss =>
    let emit (text : List Char) (rest : Option Scalar) : Option Scalar :=
      rest.map fun r => { r with text := gap.fold ++ text ++ r.text }
    if isSpace s.char || isBreak s.char then quoted quote (gap.push s.char) ss
    else if atAnyMarker (s :: ss) then none
    else if s.char == quote then
      match ss with
      | t :: rest =>
        if quote == '\'' && t.char == '\'' then emit ['\''] (quoted quote {} rest)
        else some ⟨gap.fold, ss, false⟩
      | [] => some ⟨gap.fold, [], false⟩
    else if quote == '"' && s.char == '\\' then
      match ss with
      | [] => none
      | t :: rest =>
        if isBreak t.char then emit [] (quoted quote .escaped rest)
        else match escape? t.char, escapeWidth? t.char with
          | some c, _ => emit [c] (quoted quote {} rest)
          | none, some width =>
            match charOfDigits? width (textOf (rest.take width)) with
            | some c => emit [c] (quoted quote {} (rest.drop width))
            | none => none
          | none, none => none
    else emit [s.char] (quoted quote {} ss)
termination_by ss => ss.length
decreasing_by all_goals simp <;> omega

/-! ## Block scalars -/

/-- What becomes of the line breaks at the end of a block scalar. -/
inductive Chomping where
  | strip
  /-- One line break stays. -/
  | clip
  | keep
deriving DecidableEq, Repr

def Chomping.ofChar? : Char → Option Chomping
  | '-' => some .strip
  | '+' => some .keep
  | _ => none

/-- The value of an indentation indicator. -/
def indentation? (c : Char) : Option Nat :=
  if '1' ≤ c ∧ c ≤ '9' then some (c.toNat - '0'.toNat) else none

/-- Reads the chomping and indentation indicators, in either order. -/
def blockHeader : List Spot → Chomping × Option Nat × List Spot
  | [] => (.clip, none, [])
  | s :: ss =>
    match Chomping.ofChar? s.char, indentation? s.char with
    | some chomping, _ =>
      match ss with
      | t :: rest =>
        match indentation? t.char with
        | some n => (chomping, some n, rest)
        | none => (chomping, none, ss)
      | [] => (chomping, none, [])
    | none, some n =>
      match ss with
      | t :: rest =>
        match Chomping.ofChar? t.char with
        | some chomping => (chomping, some n, rest)
        | none => (.clip, some n, ss)
      | [] => (.clip, some n, [])
    | none, none => (.clip, none, s :: ss)

/-- What follows the end of the line, if it holds only spaces and a comment. -/
def lineEnd? (ss : List Spot) : Option (List Spot) :=
  match ss.dropWhile (isSpace ·.char) with
  | [] => some []
  | s :: rest =>
    if isBreak s.char then some rest
    else if s.char == '#' then some ((rest.dropWhile (!isBreak ·.char)).drop 1)
    else none

/-- Empty lines before the content of a block scalar. -/
structure Margin where
  breaks : List Char
  /-- The greatest column that was reached. -/
  reached : Nat
  rest : List Spot

/-- Passes over indentation and empty lines. Without a known indentation all leading spaces count. A
tab must not stand for indentation. -/
def margin? (indent : Option Nat) (reached : Nat) : List Spot → Option Margin
  | [] => some ⟨[], reached, []⟩
  | s :: ss =>
    let inside := indent.all (s.column < ·)
    if inside && s.char == ' ' then margin? indent reached ss
    else
      let reached := max reached s.column
      if inside && s.char == '\t' then none
      else if isBreak s.char then
        (margin? indent reached ss).map fun m => { m with breaks := s.char :: m.breaks }
      else some ⟨[], reached, s :: ss⟩

theorem length_rest_le_of_margin? {indent : Option Nat} {reached : Nat} {ss : List Spot}
    {m : Margin} (h : margin? indent reached ss = some m) : m.rest.length ≤ ss.length := by
  induction ss generalizing reached m with
  | nil => simp only [margin?, Option.some.injEq] at h; subst h; simp
  | cons s ss ih =>
    simp only [margin?] at h
    split at h
    · exact Nat.le_succ_of_le (ih h)
    · split at h
      · cases h
      · split at h
        · obtain ⟨n, hn, rfl⟩ := Option.map_eq_some_iff.1 h
          have := ih hn
          simp only [List.length_cons]; omega
        · simp only [Option.some.injEq] at h; subst h; simp

/-- The end of a block scalar. -/
structure BlockEnd where
  /-- The line break of the last line, if there is one. -/
  last : List Char
  /-- The line breaks of the empty lines after it. -/
  breaks : List Char

/-- What stands between two lines of a block scalar. The line break is folded unless a line next to
it starts with a space. -/
def lineJoint (literal spaced : Bool) (e : BlockEnd) : List Char :=
  if !literal && e.last == ['\n'] && !spaced then
    (if e.breaks.isEmpty then [' '] else e.breaks)
  else e.last ++ e.breaks

/-- Reads the lines of a block scalar at column `indent`; `e` is what was passed over since the last
line, and `spaced` tells whether that line starts with a space. -/
def blockLines (literal : Bool) (indent : Nat) (spaced : Bool) (e : BlockEnd) (ss : List Spot) :
    Option (List Char × BlockEnd × List Spot) :=
  match ss with
  | [] => some ([], e, [])
  | s :: rest =>
    if s.column ≠ indent then some ([], e, s :: rest)
    else
      let starts := isSpace s.char
      let line := s :: rest.takeWhile (!isBreak ·.char)
      let after := rest.dropWhile (!isBreak ·.char)
      match _h : margin? (some indent) 0 (after.drop 1) with
      | none => none
      | some m =>
        (blockLines literal indent starts ⟨textOf (after.take 1), m.breaks⟩ m.rest).map
          fun (text, e', rest) =>
            (lineJoint literal (spaced || starts) e ++ textOf line ++ text, e', rest)
termination_by ss.length
decreasing_by
  have h1 := length_rest_le_of_margin? _h
  have h2 := (List.dropWhile_sublist (p := fun s : Spot => !isBreak s.char) (l := rest)).length_le
  have h3 : after.length = (List.dropWhile (fun s : Spot => !isBreak s.char) rest).length := rfl
  simp only [List.length_drop] at h1
  simp only [List.length_cons]
  omega

/-- Reads a block scalar inside a collection whose content is at least at column `least`. -/
def block (literal : Bool) (least : Nat) (ss : List Spot) : Option Scalar := do
  let (chomping, given, ss) := blockHeader ss
  let ss ← lineEnd? ss
  let fixed := given.map (· + (least - 1))
  let m ← margin? fixed 0 ss
  let indent := fixed.getD (max (max m.reached least) 1)
  let (text, e, rest) ← blockLines literal indent false ⟨[], m.breaks⟩ m.rest
  let tail := match chomping with
    | .strip => []
    | .clip => e.last
    | .keep => e.last ++ e.breaks
  return ⟨text ++ tail, rest, true⟩

end CurryGen.Yaml

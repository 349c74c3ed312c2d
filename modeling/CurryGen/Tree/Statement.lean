import CurryGen.Text.Blank
import CurryGen.Text.Position
import CurryGen.Tree.Shape

/-!
# Statements

A block of code is cut into statements, each statement is classified, and the expressions inside are
read by their shapes.

* `Statement.split`: the runs of the statements of a block.
* `Statement.lines`: the source lines of a run.
* `readExpr`, `readStatements`: from runs to trees. They always answer, by recursion on the length of
  the run.
-/

namespace CurryGen

namespace Statement

/-! ## Cutting -/

/-- Keywords of statements that end with their closing brace. -/
def blockKeywords : List String := ["if", "foreach", "for", "while", "switch", "try"]

/-- Keywords that continue such a statement after a closing brace. -/
def continuationKeywords : List String := ["else", "elseif", "catch", "finally"]

/-- Keywords of statements that are never read as expressions. -/
def copiedKeywords : List String :=
  ["if", "foreach", "for", "while", "do", "switch", "try", "throw", "echo", "print", "global",
   "break", "continue", "unset", "yield", "goto"]

/-- Whether a statement ends with the token `t` at bracket depth `depth`: a semicolon outside
brackets, or the closing brace of a statement whose first token `head` is a block keyword, unless
the token `next` continues it. -/
def endsAt (depth : Nat) (head next : Option Placed) (t : Placed) : Bool :=
  t.cutsAt ";" depth ||
    (t.isSymbol "\x7d" && t.depthAfter depth == 0 && head.any (·.isKeywordIn blockKeywords) &&
      !next.any (·.isKeywordIn continuationKeywords))

/-- The pieces that end after each such token, with what is left over last. `head` is the first
token of the current piece that is no documentation comment. -/
def splitFrom (depth : Nat) (head : Option Placed) : Run → List Run
  | [] => [[]]
  | t :: ts =>
    if endsAt depth head ts.head? t then [t] :: splitFrom 0 none ts
    else
      let head := if head.isNone && !t.isDoc then some t else head
      Run.push t (splitFrom (t.depthAfter depth) head ts)

/-- The runs of the statements of a block. Documentation comments at the end belong to none. -/
def split (ts : Run) : List Run :=
  let pieces := splitFrom 0 none ts
  match pieces.getLast? with
  | some rest => if rest.all (·.isDoc) then pieces.dropLast else pieces
  | none => pieces

theorem length_le_of_mem_splitFrom {depth : Nat} {head : Option Placed} {ts : Run} :
    ∀ p ∈ splitFrom depth head ts, p.length ≤ ts.length := by
  induction ts generalizing depth head with
  | nil => simp [splitFrom]
  | cons t ts ih =>
    intro p hp
    rw [splitFrom] at hp
    split at hp
    · rcases List.mem_cons.1 hp with rfl | hp
      · simp
      · have := ih p hp
        simp; omega
    · exact Run.length_le_of_mem_push ih p hp

theorem length_le_of_mem_split {ts p : Run} (h : p ∈ split ts) : p.length ≤ ts.length := by
  suffices p ∈ splitFrom 0 none ts from length_le_of_mem_splitFrom p this
  simp only [split] at h
  split at h
  · split at h
    · exact (List.dropLast_sublist _).subset h
    · exact h
  · exact h

/-! ## Classes -/

/-- The class of a statement, with its expression unread. -/
inductive Class where
  | ret (value : Option Run)
  | expr (value : Run)
  | block

/-- The code of a statement without the semicolon that may end it. -/
def body (code : Run) : Run :=
  if code.getLast?.any (·.isSymbol ";") then code.dropLast else code

/-- The class of a statement from its code. A statement without a semicolon is only copied, unless
it is a `return`; so are declarations of static variables. -/
def classify (code : Run) : Class :=
  match code with
  | [] => .block
  | first :: _ =>
    if first.isKeyword "return" then
      let value := (body code).drop 1
      .ret (if value.isEmpty then none else some value)
    else if !code.getLast?.any (·.isSymbol ";")
        || (first.isKeyword "static" && (body code)[1]?.any (·.isVariable))
        || first.isKeywordIn copiedKeywords then .block
    else .expr (body code)

theorem length_lt_of_classify_ret {code value : Run} (h : classify code = .ret (some value)) :
    value.length < code.length := by
  cases code with
  | nil => simp [classify] at h
  | cons first rest =>
    simp only [classify] at h
    split at h
    · simp only [Class.ret.injEq] at h
      split at h
      · cases h
      · cases h
        simp only [body, List.length_drop]
        split <;> simp only [List.length_dropLast, List.length_cons] <;> omega
    · split at h <;> cases h

theorem length_lt_of_classify_expr {code value : Run} (h : classify code = .expr value) :
    value.length < code.length := by
  cases code with
  | nil => simp [classify] at h
  | cons first rest =>
    simp only [classify] at h
    split at h
    · cases h
    · split at h
      · cases h
      · rename_i hterm
        cases h
        simp only [Bool.or_eq_true, Bool.not_eq_true', not_or, Bool.not_eq_false] at hterm
        simp [body, hterm.1.1]

/-! ## Source lines -/

/-- Characters that indent a line. -/
def isIndent (c : Char) : Bool := c == ' ' || c == '\t'

/-- A line without up to `n` characters of indentation. -/
def unindent (n : Nat) (line : List Char) : List Char :=
  line.drop ((line.take n).takeWhile isIndent).length

/-- The lines of a text without blanks at their ends, and those after the first without up to
`indent` characters of indentation. -/
def movedLeft (indent : Nat) (text : List Char) : List (List Char) :=
  match Text.lines text with
  | [] => []
  | line :: rest =>
    Text.dropTrailingBlanks line :: rest.map (Text.dropTrailingBlanks <| unindent indent ·)

/-- The indentation of the line on which a run starts. -/
def indentation (source : List Char) (ts : Run) : Nat :=
  match ts.head? with
  | some first =>
    let before := (Text.takeBytes first.start source).reverse.takeWhile (· != '\n')
    (before.reverse.takeWhile isIndent).length
  | none => 0

/-- The source text from the first token of a run through its last. -/
def sourceText (source : List Char) (ts : Run) : List Char :=
  match ts.head?, ts.getLast? with
  | some first, some last => Text.slice first.start last.stop source
  | _, _ => []

/-- The source lines of a run, moved left by the indentation of the line it starts on, without
blanks at their ends. -/
def lines (source : List Char) (ts : Run) : List String :=
  (movedLeft (indentation source ts) (sourceText source ts)).map String.ofList

end Statement

/-! ## Reading -/

/-- Whether a run starts an arrow function. -/
def startsArrow (ts : Run) : Bool :=
  match ts with
  | [] => false
  | t :: rest => t.isKeyword "fn" || (t.isKeyword "static" && rest.head?.any (·.isKeyword "fn"))

mutual

/-- The expression that a run denotes, whatever the run. -/
def readExpr (source : List Char) (ts : Run) : Expr :=
  match _h : Shape.of ts with
  | .assign target value => .assign target (readExpr source value)
  | .arrow head value => .closure head (.arrow (readExpr source value))
  | .block head body => .closure head (.block (readStatements source body))
  | .array items => .array (items.attach.map fun ⟨item, _⟩ => readItem source item)
  | .literal value text => .literal value text
  | .call callee args => .call callee (args.attach.map fun ⟨arg, _⟩ => readExpr source arg)
  | .new className args => .new className (args.attach.map fun ⟨arg, _⟩ => readExpr source arg)
  | .variable name => .variable name
  | .raw => .raw ts.tokens
termination_by (ts.length, 0)
decreasing_by
  all_goals
    have hlt := @Shape.length_lt_of_mem_parts ts
    simp only [_h, Shape.parts] at hlt
    apply Prod.Lex.left
    apply hlt
    first | assumption | simp

/-- The array item that a run denotes. An arrow outside brackets separates key and value, unless it
is that of an arrow function. -/
def readItem (source : List Char) (ts : Run) : ArrayItem :=
  if ts.startsWith "..." then .spread (readExpr source (ts.drop 1))
  else match _h : ts.breakTopLevel? "=>" with
    | some (key, value) =>
      if startsArrow key then .value (readExpr source ts)
      else .entry (readExpr source key) (readExpr source value)
    | none => .value (readExpr source ts)
termination_by (ts.length, 1)
decreasing_by
  · exact Prod.Lex.right' _ (by simp) (by omega)
  · exact Prod.Lex.right' _ (Nat.le_refl _) (by omega)
  · have := Run.length_of_breakTopLevel? _h
    exact Prod.Lex.left _ _ (by omega)
  · have := Run.length_of_breakTopLevel? _h
    exact Prod.Lex.left _ _ (by omega)
  · exact Prod.Lex.right' _ (Nat.le_refl _) (by omega)

/-- The statement of a run from `Statement.split`. -/
def readStatement (source : List Char) (ts : Run) : Stmt :=
  let form : StmtForm := match _h : Statement.classify ts.code with
    | .ret (some value) => .ret (some (readExpr source value))
    | .ret none => .ret none
    | .expr value => .expr (readExpr source value)
    | .block => .block
  .mk form ts.code (Statement.lines source ts)
termination_by (ts.length, 1)
decreasing_by
  · have := Statement.length_lt_of_classify_ret _h
    have := ts.length_code_le
    exact Prod.Lex.left _ _ (by omega)
  · have := Statement.length_lt_of_classify_expr _h
    have := ts.length_code_le
    exact Prod.Lex.left _ _ (by omega)

/-- The statements of a block. -/
def readStatements (source : List Char) (ts : Run) : List Stmt :=
  (Statement.split ts).attach.map fun ⟨piece, _⟩ => readStatement source piece
termination_by (ts.length, 2)
decreasing_by
  rename_i hmem
  exact Prod.Lex.right' _ (Statement.length_le_of_mem_split hmem) (by omega)

end

end CurryGen

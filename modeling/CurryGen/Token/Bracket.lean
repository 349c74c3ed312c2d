import CurryGen.Token.Basic

/-!
# Brackets

Cutting runs of tokens at the brackets and around them. Only depth counts: a bracket of one kind
closes one of another.

* `Run.group?`: the inside of the bracket group a run starts with, and what follows it.
* `Run.splitTopLevel`: the pieces between separators that lie outside brackets.
* `Run.breakTopLevel?`: the two sides of the first such separator.
-/

namespace CurryGen

namespace Token

def isOpen (t : Token) : Bool := t.kind == .symbol && ["(", "[", "\x7b"].contains t.text

def isClose (t : Token) : Bool := t.kind == .symbol && [")", "]", "\x7d"].contains t.text

/-- The bracket depth after a token. A stray closing bracket stays at depth zero. -/
def depthAfter (depth : Nat) (t : Token) : Nat :=
  if t.isOpen then depth + 1 else if t.isClose then depth - 1 else depth

/-- Whether a token at bracket depth `depth` is the symbol `text` outside all brackets. -/
def cutsAt (text : String) (depth : Nat) (t : Token) : Bool :=
  depth == 0 && !t.isOpen && !t.isClose && t.isSymbol text

end Token

namespace Run

/-! ## Groups -/

/-- The tokens up to the bracket that closes `depth + 1` open ones, and those after it. -/
def closing? (depth : Nat) : Run → Option (Run × Run)
  | [] => none
  | t :: ts =>
    if t.isClose && depth == 0 then some ([], ts)
    else (closing? (t.depthAfter depth) ts).map fun (inner, rest) => (t :: inner, rest)

/-- The inside of the bracket group that the run starts with, and what follows the group. -/
def group? : Run → Option (Run × Run)
  | [] => none
  | t :: ts => if t.isOpen then closing? 0 ts else none

theorem length_of_closing? {depth : Nat} {ts inner rest : Run}
    (h : closing? depth ts = some (inner, rest)) :
    ts.length = inner.length + 1 + rest.length := by
  induction ts generalizing depth inner with
  | nil => simp [closing?] at h
  | cons t ts ih =>
    rw [closing?] at h
    split at h
    · cases h; simp; omega
    · obtain ⟨⟨inner', rest'⟩, h', heq⟩ := Option.map_eq_some_iff.1 h
      cases heq
      have := ih h'
      simp; omega

/-- A group accounts for its two brackets, its inside and the rest. -/
theorem length_of_group? {ts inner rest : Run} (h : group? ts = some (inner, rest)) :
    ts.length = inner.length + 2 + rest.length := by
  cases ts with
  | nil => simp [group?] at h
  | cons t ts =>
    rw [group?] at h
    split at h
    · have := length_of_closing? h
      simp; omega
    · cases h

/-! ## Pieces -/

/-- Puts a token in front of the first piece. -/
def push (t : Placed) : List Run → List Run
  | [] => [[t]]
  | piece :: pieces => (t :: piece) :: pieces

/-- The pieces between separators at depth zero, with the last one even if it is empty. -/
def piecesFrom (separator : String) (depth : Nat) : Run → List Run
  | [] => [[]]
  | t :: ts =>
    if t.cutsAt separator depth then [] :: piecesFrom separator depth ts
    else push t (piecesFrom separator (t.depthAfter depth) ts)

/-- The pieces less an empty last one. -/
def dropEmptyLast (pieces : List Run) : List Run :=
  if pieces.getLast? = some [] then pieces.dropLast else pieces

/-- The pieces of a run between separators outside brackets. A trailing separator opens no piece. -/
def splitTopLevel (separator : String) (ts : Run) : List Run :=
  dropEmptyLast (piecesFrom separator 0 ts)

theorem length_le_of_mem_push {t : Placed} {pieces : List Run} {n : Nat}
    (h : ∀ p ∈ pieces, p.length ≤ n) : ∀ p ∈ push t pieces, p.length ≤ n + 1 := by
  intro p hp
  cases pieces with
  | nil => simp [push] at hp; subst hp; simp
  | cons q qs =>
    simp only [push, List.mem_cons] at hp
    rcases hp with rfl | hp
    · have := h q (by simp)
      simpa using this
    · have := h p (by simp [hp])
      omega

theorem length_le_of_mem_piecesFrom {separator : String} {depth : Nat} {ts : Run} :
    ∀ p ∈ piecesFrom separator depth ts, p.length ≤ ts.length := by
  induction ts generalizing depth with
  | nil => simp [piecesFrom]
  | cons t ts ih =>
    intro p hp
    rw [piecesFrom] at hp
    split at hp
    · rcases List.mem_cons.1 hp with rfl | hp
      · simp
      · have := ih p hp
        simp; omega
    · exact length_le_of_mem_push ih p hp

theorem mem_of_mem_dropEmptyLast {p : Run} {pieces : List Run} (h : p ∈ dropEmptyLast pieces) :
    p ∈ pieces := by
  unfold dropEmptyLast at h
  split at h
  · exact (List.dropLast_sublist pieces).subset h
  · exact h

/-- No piece is longer than the run. -/
theorem length_le_of_mem_splitTopLevel {separator : String} {ts p : Run}
    (h : p ∈ splitTopLevel separator ts) : p.length ≤ ts.length :=
  length_le_of_mem_piecesFrom p (mem_of_mem_dropEmptyLast h)

/-- The tokens before and after the first `symbol` at depth zero. -/
def breakFrom (symbol : String) (depth : Nat) : Run → Option (Run × Run)
  | [] => none
  | t :: ts =>
    if t.cutsAt symbol depth then some ([], ts)
    else (breakFrom symbol (t.depthAfter depth) ts).map fun (before, after) => (t :: before, after)

/-- The tokens before and after the first `symbol` outside brackets. -/
def breakTopLevel? (symbol : String) (ts : Run) : Option (Run × Run) := breakFrom symbol 0 ts

theorem length_of_breakFrom {symbol : String} {depth : Nat} {ts before after : Run}
    (h : breakFrom symbol depth ts = some (before, after)) :
    ts.length = before.length + 1 + after.length := by
  induction ts generalizing depth before with
  | nil => simp [breakFrom] at h
  | cons t ts ih =>
    rw [breakFrom] at h
    split at h
    · cases h; simp; omega
    · obtain ⟨⟨before', after'⟩, h', heq⟩ := Option.map_eq_some_iff.1 h
      cases heq
      have := ih h'
      simp; omega

theorem length_of_breakTopLevel? {symbol : String} {ts before after : Run}
    (h : ts.breakTopLevel? symbol = some (before, after)) :
    ts.length = before.length + 1 + after.length :=
  length_of_breakFrom h

end Run

end CurryGen

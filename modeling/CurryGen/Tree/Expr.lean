import CurryGen.Tree.Literal
import CurryGen.Tree.Param

/-!
# Expressions and statements

Expressions have structure only in the forms that later stages look into; any other expression stays
a run of tokens, which can still be printed. A statement keeps its tokens and its source lines
beside its form.
-/

namespace CurryGen

/-- What a call calls. -/
inductive Callee where
  | function (name : String)
  /-- `class::method(...)`, with `self`, `static` and `parent` as class names. -/
  | static (className method : String)
  /-- `$receiver->method(...)`. -/
  | method (receiver method : String)
deriving DecidableEq, Repr

/-- The name of the function or method that is called. -/
def Callee.name : Callee → String
  | .function name => name
  | .static _ name => name
  | .method _ name => name

/-- An entry of a closure's `use` clause. -/
structure Capture where
  name : String
  byRef : Bool
deriving DecidableEq, Repr

/-- What a closure declares before its body. -/
structure ClosureHead where
  isStatic : Bool
  params : List Param
  uses : List Capture
  returnType : Option String
deriving DecidableEq, Repr

mutual

inductive Expr where
  | variable (name : String)
  /-- `$target = value`. -/
  | assign (target : String) (value : Expr)
  | call (callee : Callee) (args : List Expr)
  | new (className : String) (args : List Expr)
  | closure (head : ClosureHead) (body : ClosureBody)
  | array (items : List ArrayItem)
  /-- A literal with its source text. -/
  | literal (value : Literal) (source : String)
  /-- Any other expression. -/
  | raw (tokens : List Token)

inductive ArrayItem where
  | value (value : Expr)
  | entry (key value : Expr)
  /-- `...value`. -/
  | spread (value : Expr)

inductive ClosureBody where
  /-- `fn (...) => value`. -/
  | arrow (value : Expr)
  | block (statements : List Stmt)

inductive Stmt where
  /-- The tokens leave out documentation comments; the lines are those of the source, moved left by
  the indentation of the first. -/
  | mk (form : StmtForm) (tokens : Run) (lines : List String)

inductive StmtForm where
  | ret (value : Option Expr)
  | expr (value : Expr)
  /-- Control flow and anything else that is only copied. -/
  | block

end

instance : Inhabited Expr := ⟨.raw []⟩

namespace Stmt

def form : Stmt → StmtForm
  | mk form _ _ => form

def tokens : Stmt → Run
  | mk _ tokens _ => tokens

def lines : Stmt → List String
  | mk _ _ lines => lines

/-- The value of a `return` statement that has one. -/
def returned? : Stmt → Option Expr
  | mk (.ret value) _ _ => value
  | _ => none

theorem returned?_eq_some_iff {s : Stmt} {value : Expr} :
    s.returned? = some value ↔ s.form = .ret (some value) := by
  obtain ⟨form, tokens, lines⟩ := s
  cases form <;> simp [returned?, Stmt.form]

theorem returned?_eq_none_iff {s : Stmt} :
    s.returned? = none ↔ ∀ value, s.form ≠ .ret (some value) := by
  simp only [Option.eq_none_iff_forall_ne_some, ne_eq, returned?_eq_some_iff]

end Stmt

namespace Expr

/-- The parameters of a closure. -/
def closureParams? : Expr → Option (List Param)
  | .closure head _ => some head.params
  | _ => none

theorem closureParams?_eq_some_iff {e : Expr} {ps : List Param} :
    e.closureParams? = some ps ↔ ∃ head body, e = .closure head body ∧ head.params = ps := by
  cases e <;> simp [closureParams?]

theorem closureParams?_eq_none_iff {e : Expr} :
    e.closureParams? = none ↔ ∀ head body, e ≠ .closure head body := by
  cases e <;> simp [closureParams?]

end Expr

end CurryGen

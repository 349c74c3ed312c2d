import CurryGen.Template.CallShape

/-!
# Remembered delegations

A `Memo` keeps the inner parameters that earlier queries resolved, so that a delegation chain is
followed once only. Failures are not remembered. While a query runs, the memo also holds the names
whose delegations are being followed, which is how a circle is noticed.
-/

namespace CurryGen.Template

structure Memo where
  /-- The functions whose inner parameters are known. -/
  known : List (String × List Param) := []
  /-- The functions whose delegations are being followed, outermost first. -/
  resolving : List String := []
deriving DecidableEq, Repr

namespace Memo

/-- The memo while the delegation of `name` is followed. -/
def enter (memo : Memo) (name : String) : Memo :=
  { memo with resolving := memo.resolving ++ [name] }

/-- The memo once the function entered last has its answer, which is kept unless it is an error. -/
def leave (memo : Memo) (name : String) (answer : Except Error (List Param)) : Memo :=
  { known := match answer with
      | .ok params => (name, params) :: memo.known
      | .error _ => memo.known
    resolving := memo.resolving.dropLast }

/-- Follows the delegation of `name` up to a function whose inner parameters are known, and keeps
the result for every function on the way. -/
def walk (t : Template) (memo : Memo) (name : String) : Except Error (List Param) × Memo :=
  match _h : t.find? name with
  | none => (.error (.unknownFunction name), memo)
  | some f =>
    match memo.known.lookup name with
    | some params => (.ok params, memo)
    | none =>
      if _hr : name ∈ memo.resolving then
        (.error (.cyclicDelegation (memo.resolving ++ [name])), memo)
      else
        let outcome : Except Error (List Param) × Memo := match returned? f with
          | none => (.error (.missingReturn name), memo.enter name)
          | some value =>
            match t.delegation value with
            | .params params => (.ok params, memo.enter name)
            | .function next => walk t (memo.enter name) next
        (outcome.1, outcome.2.leave name outcome.1)
termination_by t.unvisited memo.resolving
decreasing_by exact unvisited_append_lt _h _hr

/-- The inner parameters of a function, and what is known afterwards. -/
def innerParams (t : Template) (memo : Memo) (name : String) : Except Error (List Param) × Memo :=
  walk t memo name

/-- The call shape of a function, and what is known afterwards. -/
def callShape (t : Template) (memo : Memo) (f : TemplateFunction) :
    Except Error CallShape × Memo :=
  if f.needsInnerParams then
    let (params, memo) := innerParams t memo f.name
    (params.map (CallShape.of f), memo)
  else (.ok (.of f []), memo)

end Memo

end CurryGen.Template

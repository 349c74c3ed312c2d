import CurryGen.Tree.Statement

/-!
# Equations of the readers

How expressions and statements are read, without the care for termination.

* `readExpr_eq`: an expression from the shape of its run.
* `readStatements_eq_map`: the statements of a block, each from its own run.
* `Statement.exists_of_classify_expr`: the code of an expression statement.
-/

namespace CurryGen

variable (source : List Char) (ts : Run)

theorem readExpr_eq : readExpr source ts =
    match Shape.of ts with
    | .assign target value => .assign target (readExpr source value)
    | .arrow head value => .closure head (.arrow (readExpr source value))
    | .block head body => .closure head (.block (readStatements source body))
    | .array items => .array (items.map (readItem source))
    | .literal value text => .literal value text
    | .call callee args => .call callee (args.map (readExpr source))
    | .new className args => .new className (args.map (readExpr source))
    | .variable name => .variable name
    | .raw => .raw ts.tokens := by
  rw [readExpr]
  split <;> rename_i hshape <;> simp only [hshape, List.attach_map_val]

theorem form_readStatement : (readStatement source ts).form =
    match Statement.classify ts.code with
    | .ret value => .ret (value.map (readExpr source))
    | .expr value => .expr (readExpr source value)
    | .block => .block := by
  rw [readStatement]
  simp only [Stmt.form]
  split <;> rename_i hclass <;> simp only [hclass, Option.map_some, Option.map_none]

theorem tokens_readStatement : (readStatement source ts).tokens = ts.code := by
  rw [readStatement]
  rfl

theorem lines_readStatement : (readStatement source ts).lines = Statement.lines source ts := by
  rw [readStatement]
  rfl

theorem readStatement_eq : readStatement source ts =
    .mk
      (match Statement.classify ts.code with
      | .ret value => .ret (value.map (readExpr source))
      | .expr value => .expr (readExpr source value)
      | .block => .block)
      ts.code (Statement.lines source ts) := by
  rw [← form_readStatement, ← tokens_readStatement, ← lines_readStatement]
  cases readStatement source ts
  rfl

theorem readStatements_eq_map :
    readStatements source ts = (Statement.split ts).map (readStatement source) := by
  rw [readStatements]
  exact List.attach_map_val

theorem map_tokens_readStatement (rs : List Run) :
    (rs.map (readStatement source)).map (·.tokens.tokens) = rs.map (·.code.tokens) := by
  rw [List.map_map]
  exact List.map_congr_left fun r _ => congrArg Run.tokens (tokens_readStatement source r)

theorem map_tokens_readStatements :
    (readStatements source ts).map (·.tokens.tokens) = (Statement.split ts).map (·.code.tokens) := by
  rw [readStatements_eq_map, map_tokens_readStatement]

namespace Statement

/-- The code of an expression statement is the expression and a semicolon. -/
theorem exists_of_classify_expr {code value : Run} (h : classify code = .expr value) :
    ∃ stop, code = value ++ [stop] ∧ stop.isSymbol ";" = true := by
  cases code with
  | nil => cases h
  | cons first rest =>
    simp only [classify] at h
    split at h
    · cases h
    · split at h
      · cases h
      · rename_i hexpr
        simp only [Bool.or_eq_true, Bool.not_eq_true', not_or, Bool.not_eq_false] at hexpr
        have hlast := hexpr.1.1
        cases h
        rw [body, if_pos hlast]
        rw [List.getLast?_eq_some_getLast (List.cons_ne_nil _ _), Option.any_some] at hlast
        exact ⟨_, (List.dropLast_concat_getLast (List.cons_ne_nil _ _)).symm, hlast⟩

end Statement

end CurryGen

import CurryGen.Proofs.Token.Bracket
import CurryGen.Proofs.Tree.Statement
import CurryGen.Value.Evaluate

/-!
# Variables of a method body

Evaluation knows one statement that binds a variable, the simple assignment `$v = e;`. Everything
else that changes a variable is passed over, so the variable keeps the value it was assigned.

* `readStatement_assigns_iff`: the code that is read as a simple assignment.
* `Statement.Changes`: the code that changes a variable or an element of it in place.
* `Bindings.run_append`, `Bindings.lookup_run`: running a body in parts, and what a run keeps.
* `Bindings.run_changed`: the value of a variable that is changed between its assignment and the
  `return` that reads it.
-/

namespace CurryGen

open Run Token

/-! ## Tokens -/

namespace Token

variable {t : Token} {text : String}

theorem isKeywordIn_of_kind_ne (h : t.kind ≠ .name) (words : List String) :
    t.isKeywordIn words = false := by
  rw [isKeywordIn, beq_eq_false_iff_ne.2 h, Bool.false_and]

theorem isSymbol_inj {other : String} (h : t.isSymbol text = true)
    (hother : t.isSymbol other = true) : text = other := by
  simp only [isSymbol, Bool.and_eq_true, beq_iff_eq] at h hother
  exact h.2.symm.trans hother.2

theorem isSymbol_eq_false_of_isSymbolIn {texts : List String}
    (h : t.isSymbolIn texts = true) (htext : text ∉ texts) : t.isSymbol text = false := by
  rw [isSymbolIn, Bool.and_eq_true, List.contains_iff_mem] at h
  refine Bool.eq_false_iff.2 fun ht => htext ?_
  simp only [isSymbol, Bool.and_eq_true, beq_iff_eq] at ht
  exact ht.2 ▸ h.2

end Token

/-! ## Simple assignments -/

namespace Shape

variable {ts rest : Run} {s : Shape}

/-- Only `$target = value` is read as an assignment. -/
theorem of_eq_assign_iff {name : String} {value : Run} : of ts = .assign name value ↔
    ∃ target sign, ts = target :: sign :: value ∧ target.variableName? = some name ∧
      sign.isSymbol "=" = true ∧ value ≠ [] := by
  constructor
  · intro h
    have hreads : Reads ts (.assign name value) := h ▸ reads_of ts
    cases hreads with
    | assign htarget hsign hvalue => exact ⟨_, _, rfl, htarget, hsign, hvalue⟩
  · rintro ⟨target, sign, rfl, htarget, hsign, hvalue⟩
    obtain ⟨t, value, rfl⟩ := List.exists_cons_of_ne_nil hvalue
    rw [of, assignment?, if_pos hsign, htarget]
    rfl

end Shape

namespace Statement

variable {code value : Run}

/-- Code that begins with no name is an expression statement if it ends with a semicolon. -/
theorem classify_of_kind_ne {first : Placed} {rest : Run} (h : first.kind ≠ .name) :
    classify (first :: rest) =
      if (first :: rest).getLast?.any (·.isSymbol ";") then .expr (first :: rest).dropLast
      else .block := by
  simp only [classify, isKeyword, isKeywordIn_of_kind_ne h, body, Bool.false_eq_true, if_false,
    Bool.false_and, Bool.or_false, Bool.not_eq_true']
  cases hlast : (first :: rest).getLast?.any (·.isSymbol ";") <;> simp

end Statement

/-- A statement that evaluation takes as an assignment of the variable. -/
def Stmt.Assigns (name : String) (s : Stmt) : Prop := ∃ value, s.form = .expr (.assign name value)

section

variable {source : List Char} {p code : Run} {name : String}

theorem readExpr_eq_assign_iff {value : Expr} :
    readExpr source code = .assign name value ↔
      ∃ run, Shape.of code = .assign name run ∧ readExpr source run = value := by
  rw [readExpr_eq]
  split <;> simp_all [and_assoc]

theorem form_eq_expr_iff {value : Expr} : (readStatement source p).form = .expr value ↔
    ∃ run, Statement.classify p.code = .expr run ∧ readExpr source run = value := by
  rw [form_readStatement]
  split <;> simp_all

/-- The code of an assignment is that of a variable, an equals sign, a value and a semicolon. -/
theorem readStatement_assigns_iff : (readStatement source p).Assigns name ↔
    ∃ target sign value stop, p.code = target :: sign :: (value ++ [stop]) ∧
      target.variableName? = some name ∧ sign.isSymbol "=" = true ∧ value ≠ [] ∧
      stop.isSymbol ";" = true := by
  constructor
  · rintro ⟨e, hform⟩
    obtain ⟨run, hclass, hrun⟩ := form_eq_expr_iff.1 hform
    obtain ⟨value, hshape, -⟩ := readExpr_eq_assign_iff.1 hrun
    obtain ⟨target, sign, rfl, htarget, hsign, hvalue⟩ := Shape.of_eq_assign_iff.1 hshape
    obtain ⟨stop, hcode, hstop⟩ := Statement.exists_of_classify_expr hclass
    exact ⟨target, sign, value, stop, hcode, htarget, hsign, hvalue, hstop⟩
  · rintro ⟨target, sign, value, stop, hcode, htarget, hsign, hvalue, hstop⟩
    have hkind : target.kind ≠ .name := by simp [(variableName?_eq_some_iff.1 htarget).1]
    have hclass : Statement.classify p.code = .expr (target :: sign :: value) := by
      have hlast : (target :: sign :: (value ++ [stop])).getLast? = some stop := by
        rw [← List.cons_append, ← List.cons_append, List.getLast?_concat]
      rw [hcode, Statement.classify_of_kind_ne hkind, hlast, Option.any_some, if_pos hstop,
        ← List.cons_append, ← List.cons_append, List.dropLast_concat]
    have hshape := Shape.of_eq_assign_iff.2 ⟨target, sign, rfl, htarget, hsign, hvalue⟩
    exact ⟨readExpr source value, form_eq_expr_iff.2
      ⟨_, hclass, readExpr_eq_assign_iff.2 ⟨value, hshape, rfl⟩⟩⟩

end

/-! ## Changes -/

namespace Statement

/-- Operators that write to what stands before them. -/
def updates : List String :=
  ["++", "--", "+=", "-=", "*=", "/=", ".=", "%=", "**=", "??=", "&=", "|=", "^=", "<<=", ">>="]

/-- The code of a variable or of an element of it: `$v`, `$v[]`, `$v[key][]`. -/
inductive Place (name : String) : Run → Prop
  | whole {target : Placed} (htarget : target.variableName? = some name) : Place name [target]
  | element {place index : Run} {opening closing : Placed} (hplace : Place name place)
      (hopening : opening.isSymbol "[" = true) (hindex : balanced 0 index.tokens = true)
      (hclosing : closing.isSymbol "]" = true) : Place name (place ++ opening :: (index ++ [closing]))

/-- Code that changes a variable and does not bind it anew. -/
inductive Changes (name : String) : Run → Prop
  /-- `$v[key] = e;` -/
  | write {place rest : Run} {sign : Placed} (hplace : Place name place)
      (helement : 1 < place.length) (hsign : sign.isSymbol "=" = true) :
      Changes name (place ++ sign :: rest)
  /-- `$v += e;`, `$v[key] .= e;`, `$v++;` -/
  | update {place rest : Run} {sign : Placed} (hplace : Place name place)
      (hsign : sign.isSymbolIn updates = true) : Changes name (place ++ sign :: rest)
  /-- `++$v;` -/
  | increase {place rest : Run} {sign : Placed} (hplace : Place name place)
      (hsign : sign.isSymbolIn ["++", "--"] = true) : Changes name (sign :: (place ++ rest))

/-- What stands after a variable in the code of one of its elements is no equals sign. -/
theorem Place.head {name : String} {place : Run} (h : Place name place) :
    ∃ target rest, place = target :: rest ∧ target.variableName? = some name ∧
      ∀ t ∈ rest.head?, t.isSymbol "=" = false := by
  induction h with
  | whole htarget => exact ⟨_, [], rfl, htarget, fun _ ht => absurd ht (Option.not_mem_none _)⟩
  | element hplace hopening _ _ ih =>
    obtain ⟨target, rest, rfl, htarget, hrest⟩ := ih
    refine ⟨target, _, rfl, htarget, fun t ht => ?_⟩
    -- Only the first bracket stands right after the variable.
    cases rest with
    | nil =>
      obtain rfl := Option.mem_some_iff.1 ht
      exact Bool.eq_false_iff.2 fun ht => absurd (isSymbol_inj hopening ht) (by decide)
    | cons u rest => exact hrest t ht

theorem Place.head_append {name : String} {place rest : Run} {sign : Placed}
    (h : Place name place) (hsign : place.length = 1 → sign.isSymbol "=" = false) :
    ∃ first more, place ++ sign :: rest = first :: more ∧ first.kind = .variable ∧
      ∀ t ∈ more.head?, t.isSymbol "=" = false := by
  obtain ⟨target, more, rfl, htarget, hmore⟩ := h.head
  refine ⟨target, _, rfl, (variableName?_eq_some_iff.1 htarget).1, fun t ht => ?_⟩
  cases more with
  | nil =>
    obtain rfl := Option.mem_some_iff.1 ht
    exact hsign rfl
  | cons u more => exact hmore t ht

namespace Changes

variable {name : String} {code : Run}

/-- A change begins with no name, and not with a variable and an equals sign. -/
theorem head (h : Changes name code) : ∃ first rest, code = first :: rest ∧
    first.kind ≠ .name ∧ (first.kind = .variable → ∀ t ∈ rest.head?, t.isSymbol "=" = false) := by
  cases h with
  | write hplace helement hsign =>
    obtain ⟨first, more, hcode, hkind, hmore⟩ := hplace.head_append fun hone => by omega
    exact ⟨first, more, hcode, by simp [hkind], fun _ => hmore⟩
  | update hplace hsign =>
    obtain ⟨first, more, hcode, hkind, hmore⟩ := hplace.head_append fun _ =>
      isSymbol_eq_false_of_isSymbolIn hsign (by decide)
    exact ⟨first, more, hcode, by simp [hkind], fun _ => hmore⟩
  | @increase place rest sign hplace hsign =>
    have hkind : sign.kind = .symbol := by
      rw [isSymbolIn, Bool.and_eq_true, beq_iff_eq] at hsign
      exact hsign.1
    exact ⟨sign, _, rfl, by simp [hkind], fun hv => absurd (hkind.symm.trans hv) (by decide)⟩

variable {source : List Char} {p : Run}

/-- Evaluation does not take a change as an assignment, of whatever variable. -/
theorem not_assigns (h : Changes name p.code) (target : String) :
    ¬(readStatement source p).Assigns target := by
  rw [readStatement_assigns_iff]
  rintro ⟨t, sign, value, stop, hcode, htarget, hsign, -, -⟩
  obtain ⟨first, rest, hfirst, -, hsecond⟩ := h.head
  obtain ⟨rfl, rfl⟩ := List.cons.inj (hcode.symm.trans hfirst)
  rw [hsecond ((variableName?_eq_some_iff.1 htarget).1) sign rfl] at hsign
  cases hsign

theorem returned?_eq_none (h : Changes name p.code) : (readStatement source p).returned? = none := by
  -- A `return` begins with a name.
  obtain ⟨first, rest, hfirst, hkind, -⟩ := h.head
  refine Option.eq_none_iff_forall_ne_some.2 fun e he => ?_
  have hform := Stmt.returned?_eq_some_iff.1 he
  rw [form_readStatement, hfirst, Statement.classify_of_kind_ne hkind] at hform
  split at hform
  · rename_i hclass
    split at hclass <;> cases hclass
  · cases hform
  · cases hform

end Changes

end Statement

/-! ## Runs -/

namespace Bindings

variable {state : Bindings × Option Value} {env : Bindings} {s : Stmt} {statements : List Stmt}
  {v : String}

theorem step_eq_self (hassigns : ∀ target, ¬s.Assigns target) (hreturned : s.returned? = none) :
    step state s = state := by
  unfold step
  simp only
  split
  · rename_i target value hform
    exact absurd ⟨value, hform⟩ (hassigns target)
  · rename_i value hform
    rw [Stmt.returned?_eq_some_iff.2 hform] at hreturned
    cases hreturned
  · rfl

theorem step_eq : step state s =
    ((step (state.1, none) s).1, (step (state.1, none) s).2.or state.2) := by
  unfold step
  simp only
  split <;> rfl

theorem returned_step : (step (env, none) s).2 = s.returned?.map (·.eval env) := by
  cases hreturned : s.returned? with
  | none =>
    unfold step
    simp only
    split
    · rfl
    · rename_i value hform
      rw [Stmt.returned?_eq_some_iff.2 hform] at hreturned
      cases hreturned
    · rfl
  | some value =>
    simp only [step, Stmt.returned?_eq_some_iff.1 hreturned]
    rfl

theorem foldl_step : statements.foldl step state =
    ((run state.1 statements).1, (run state.1 statements).2.or state.2) := by
  induction statements generalizing state with
  | nil => rfl
  | cons s statements ih =>
    rw [run, List.foldl_cons, List.foldl_cons, ih, ih, step_eq, Option.or_assoc]

theorem run_cons : run env (s :: statements) =
    ((run (step (env, none) s).1 statements).1,
      (run (step (env, none) s).1 statements).2.or (step (env, none) s).2) := by
  rw [run, List.foldl_cons]
  exact foldl_step

theorem run_append {more : List Stmt} : run env (statements ++ more) =
    ((run (run env statements).1 more).1,
      (run (run env statements).1 more).2.or (run env statements).2) := by
  rw [run, List.foldl_append]
  exact foldl_step

/-- What a statement does not assign keeps its value. -/
theorem lookup_step (h : ¬s.Assigns v) : (step state s).1.lookup v = state.1.lookup v := by
  unfold step
  simp only
  split
  · rename_i target value hform
    have hne : v ≠ target := by
      rintro rfl
      exact h ⟨value, hform⟩
    rw [List.lookup_cons, beq_eq_false_iff_ne.2 hne]
  · rfl
  · rfl

theorem lookup_run (h : ∀ s ∈ statements, ¬s.Assigns v) :
    (run env statements).1.lookup v = env.lookup v := by
  induction statements generalizing env with
  | nil => rfl
  | cons s statements ih =>
    rw [List.forall_mem_cons] at h
    rw [run_cons, ih h.2, lookup_step h.1]

theorem returned_run_eq_none (h : ∀ s ∈ statements, s.returned? = none) :
    (run env statements).2 = none := by
  induction statements generalizing env with
  | nil => rfl
  | cons s statements ih =>
    rw [List.forall_mem_cons] at h
    rw [run_cons, ih h.2, returned_step, h.1]
    rfl

/-- A change is passed over. -/
theorem run_change {before after : List Stmt} {source : List Char} {change : Run}
    (h : Statement.Changes v change.code) :
    run env (before ++ readStatement source change :: after) = run env (before ++ after) := by
  rw [run, run, List.foldl_append, List.foldl_append, List.foldl_cons,
    step_eq_self h.not_assigns h.returned?_eq_none]

/-- The last `return` with a value sees the bindings before it. -/
theorem returned_run {before after : List Stmt} {ret : Stmt} {x : Expr}
    (hret : ret.form = .ret (some x)) (hafter : ∀ s ∈ after, s.returned? = none) :
    (run env (before ++ ret :: after)).2 = some (x.eval (run env before).1) := by
  have hstep (env : Bindings) : step (env, none) ret = (env, some (x.eval env)) := by
    simp only [step, hret]
  rw [run_append, run_cons, hstep, returned_run_eq_none hafter]
  rfl

/-- After an assignment the variable has the value of it, up to the next one. -/
theorem eval_variable_run {before after : List Stmt} {set : Stmt} {e : Expr}
    (hset : set.form = .expr (.assign v e)) (hafter : ∀ s ∈ after, ¬s.Assigns v) :
    (Expr.variable v).eval (run env (before ++ set :: after)).1 = e.eval (run env before).1 := by
  have hstep (env : Bindings) : (step (env, none) set).1 = (v, e.eval env) :: env := by
    simp only [step, hset]
  rw [Expr.eval, run_append, run_cons, lookup_run hafter, hstep, List.lookup_cons_self,
    Option.getD_some]

/-- **A change leaves the value of the variable as it was**: a later `return` sees the value of the
last assignment, and the other variables as without the change. So the value that is reported has
no literal form exactly if that of the assignment has none. -/
theorem run_changed {before first second after : List Stmt} {set ret : Stmt} {e x : Expr}
    (source : List Char) {change : Run} (hset : set.form = .expr (.assign v e))
    (hfirst : ∀ s ∈ first, ¬s.Assigns v) (hsecond : ∀ s ∈ second, ¬s.Assigns v)
    (hchange : Statement.Changes v change.code) (hret : ret.form = .ret (some x))
    (hafter : ∀ s ∈ after, s.returned? = none) :
    ∃ reached, (run env (before ++ set :: (first ++ readStatement source change ::
        (second ++ ret :: after)))).2 = some (x.eval reached) ∧
      reached = (run env (before ++ set :: (first ++ second))).1 ∧
      (Expr.variable v).eval reached = e.eval (run env before).1 := by
  refine ⟨_, ?_, rfl, eval_variable_run hset fun s hs => ?_⟩
  · have hbody : before ++ set :: (first ++ readStatement source change :: (second ++ ret :: after)) =
        (before ++ set :: first) ++ readStatement source change :: (second ++ ret :: after) := by
      rw [List.append_assoc, List.cons_append]
    have hskipped : (before ++ set :: first) ++ (second ++ ret :: after) =
        (before ++ set :: (first ++ second)) ++ ret :: after := by
      simp only [List.append_assoc, List.cons_append]
    rw [hbody, run_change hchange, hskipped, returned_run hret hafter]
  · exact (List.mem_append.1 hs).elim (hfirst s) (hsecond s)

/-- After `$v = [1]; $v[] = 2;` the value of `$v` is still `[1]`. -/
theorem run_changed_append :
    let set : Stmt := .mk (.expr (.assign "v" (.array [.value (.literal (.int 1) "1")]))) [] []
    let change : Run := [⟨⟨.variable, "$v"⟩, 0⟩, ⟨.symbol "[", 2⟩, ⟨.symbol "]", 3⟩,
      ⟨.symbol "=", 5⟩, ⟨⟨.int, "2"⟩, 7⟩, ⟨.symbol ";", 8⟩]
    let ret : Stmt := .mk (.ret (some (.variable "v"))) [] []
    Statement.Changes "v" change.code ∧
      (run [] [set, readStatement [] change, ret]).2 = some (.array [(.int 0, .int 1)]) := by
  intro set change ret
  have hv : Statement.Place "v" [⟨⟨.variable, "$v"⟩, 0⟩] := .whole (by decide)
  have helement := @Statement.Place.element "v" _ [] ⟨.symbol "[", 2⟩ ⟨.symbol "]", 3⟩ hv rfl rfl rfl
  have hchange : Statement.Changes "v" change.code :=
    @Statement.Changes.write "v" _ [⟨⟨.int, "2"⟩, 7⟩, ⟨.symbol ";", 8⟩] ⟨.symbol "=", 5⟩ helement
      (by decide) rfl
  obtain ⟨reached, hrun, -, hvalue⟩ := @run_changed [] "v" [] [] [] [] set ret _ _ [] change rfl
    (List.forall_mem_nil _) (List.forall_mem_nil _) hchange rfl (List.forall_mem_nil _)
  refine ⟨hchange, hrun.trans ?_⟩
  rw [hvalue]
  rfl

end Bindings

end CurryGen

import CurryGen.Tree.Expr

/-!
# Shapes of expressions

`Shape.of` recognises the form of an expression from its run of tokens, one level deep: the parts of
the form are runs still to be read. A run of no known form is `raw`, never an error.

* `Shape.Reads`, `Shape.reads_of`: what a run of each form consists of.
* `Shape.length_lt_of_mem_parts`: every part is shorter than the run.
-/

namespace CurryGen

/-- The form of an expression, with its parts unread. -/
inductive Shape where
  | assign (target : String) (value : Run)
  | arrow (head : ClosureHead) (value : Run)
  | block (head : ClosureHead) (body : Run)
  | array (items : List Run)
  | literal (value : Literal) (source : String)
  | call (callee : Callee) (args : List Run)
  | new (className : String) (args : List Run)
  | variable (name : String)
  | raw

namespace Run

/-- Whether the run starts with the symbol `text`. -/
def startsWith (text : String) (ts : Run) : Bool := ts.head?.any (·.isSymbol text)

/-- The inside of the parentheses that the run starts with, and what follows them. -/
def parens? (ts : Run) : Option (Run × Run) := if ts.startsWith "(" then ts.group? else none

/-- The arguments in the parentheses that the run consists of. -/
def arguments? (ts : Run) : Option (List Run) :=
  match ts.parens? with
  | some (inner, []) => some (inner.splitTopLevel ",")
  | _ => none

end Run

namespace Shape

/-! ## Recognisers -/

/-- `$target = value`, with a value that is not empty. -/
def assignment? : Run → Option Shape
  | target :: sign :: v :: value =>
    if sign.isSymbol "=" then target.variableName?.map (.assign · (v :: value)) else none
  | _ => none

/-- The variables that the tokens of a `use` clause capture. -/
def captures (ts : Run) : List Capture :=
  (ts.splitTopLevel ",").filterMap fun entry => do
    let name ← (← entry.getLast?).variableName?
    return { name, byRef := entry.startsWith "&" }

/-- The `use` clause that a run may start with, and what follows it. Arrow functions have none. -/
def uses? (isArrow : Bool) (ts : Run) : Option (List Capture × Run) :=
  if !isArrow && ts.head?.any (·.isKeyword "use") then
    (Run.parens? (ts.drop 1)).map fun (inner, rest) => (captures inner, rest)
  else some ([], ts)

/-- Whether a closure's return type ends before this token. -/
def endsType (t : Placed) : Bool := t.isSymbol "\x7b" || t.isSymbol "=>"

/-- The return type that a run may start with, and what follows it from the body's first token. -/
def returnType? (ts : Run) : Option (Option String × Run) :=
  if ts.startsWith ":" then
    match (ts.drop 1).dropWhile (!endsType ·) with
    | [] => none
    | body => some (some (Run.join ((ts.drop 1).takeWhile (!endsType ·))), body)
  else some (none, ts)

/-- What follows the keywords of a closure, with whether it is static and whether it is an arrow
function. -/
def closureStart? (ts : Run) : Option (Bool × Bool × Run) :=
  match ts with
  | [] => none
  | t :: rest =>
    let isStatic := t.isKeyword "static"
    match (if isStatic then rest else t :: rest) with
    | [] => none
    | keyword :: rest =>
      if keyword.isKeyword "fn" then some (isStatic, true, rest)
      else if keyword.isKeyword "function" then some (isStatic, false, rest)
      else none

/-- A closure whose head has been read. An arrow function takes the rest as its value; otherwise the
rest is a block and nothing else. -/
def closureBody? (isArrow : Bool) (head : ClosureHead) (ts : Run) : Option Shape :=
  if isArrow then
    if ts.startsWith "=>" then some (.arrow head (ts.drop 1)) else none
  else if ts.startsWith "\x7b" then
    match ts.group? with
    | some (body, []) => some (.block head body)
    | _ => none
  else none

/-- A closure or an arrow function. -/
def closure? (ts : Run) : Option Shape :=
  match closureStart? ts with
  | none => none
  | some (isStatic, isArrow, rest) =>
    match Run.parens? (if Run.startsWith "&" rest then rest.drop 1 else rest) with
    | none => none
    | some (inner, rest) =>
      match uses? isArrow rest with
      | none => none
      | some (uses, rest) =>
        match returnType? rest with
        | none => none
        | some (returnType, rest) =>
          closureBody? isArrow { isStatic, params := Param.listOfRun inner, uses, returnType } rest

/-- The group of items that an array starts with, written `[items]` or `array(items)`. -/
def arrayGroup? (ts : Run) : Option (Run × Run) :=
  if ts.startsWith "[" then ts.group?
  else if ts.head?.any (·.isKeyword "array") then Run.parens? (ts.drop 1)
  else none

/-- An array that takes the whole run. -/
def array? (ts : Run) : Option Shape :=
  match arrayGroup? ts with
  | some (inner, []) => some (.array (inner.splitTopLevel ","))
  | _ => none

def literal? (ts : Run) : Option Shape := (Literal.ofRun? ts).map fun (value, source) => .literal value source

/-- `new` with a class name and perhaps arguments. -/
def new? : Run → Option Shape
  | [] => none
  | className :: rest =>
    match className.name? with
    | none => none
    | some name => if rest.isEmpty then some (.new name []) else (Run.arguments? rest).map (.new name)

/-- The operator, a method name and arguments: the rest of a method call. -/
def member? (operator : String) (callee : String → Callee) : Run → Option Shape
  | sign :: method :: rest =>
    if sign.isSymbol operator then
      match method.name? with
      | none => none
      | some name => (Run.arguments? rest).map (.call (callee name))
    else none
  | _ => none

/-- `callee(args)` for a function, a static method or a method of a variable. -/
def call? : Run → Option Shape
  | [] => none
  | t :: rest =>
    if t.isKeyword "new" then new? rest
    else match t.kind with
      | .name =>
        match Run.arguments? rest with
        | some args => some (.call (.function t.text) args)
        | none => member? "::" (.static t.text) rest
      | .variable => member? "->" (.method (t.variableName?.getD "")) rest
      | _ => none

/-- A variable alone. -/
def variableName? : Run → Option Shape
  | [t] => t.variableName?.map .variable
  | _ => none

/-- The form of a run. The first form that fits counts. -/
def of (ts : Run) : Shape :=
  (assignment? ts <|> closure? ts <|> array? ts <|> literal? ts <|> call? ts <|> variableName? ts).getD
    .raw

/-! ## How a form is read -/

/-- A closure declares `head` before the run of its body. -/
inductive Declares (ts : Run) (isArrow : Bool) : ClosureHead → Run → Prop
  | intro {isStatic : Bool} {start inner afterParams afterUses body : Run} {uses : List Capture}
      {returnType : Option String} :
      closureStart? ts = some (isStatic, isArrow, start) →
      Run.parens? (if Run.startsWith "&" start then start.drop 1 else start) =
        some (inner, afterParams) →
      uses? isArrow afterParams = some (uses, afterUses) →
      returnType? afterUses = some (returnType, body) →
      Declares ts isArrow { isStatic, params := Param.listOfRun inner, uses, returnType } body

/-- What a run of each form consists of. Every run may be left raw. -/
inductive Reads : Run → Shape → Prop
  | assign {target sign : Placed} {value : Run} {name : String} :
      target.variableName? = some name → sign.isSymbol "=" = true → value ≠ [] →
      Reads (target :: sign :: value) (.assign name value)
  | arrow {ts body : Run} {head : ClosureHead} :
      Declares ts true head body → body.startsWith "=>" = true → Reads ts (.arrow head (body.drop 1))
  | block {ts body inner : Run} {head : ClosureHead} :
      Declares ts false head body → body.startsWith "\x7b" = true → body.group? = some (inner, []) →
      Reads ts (.block head inner)
  | array {ts inner : Run} :
      arrayGroup? ts = some (inner, []) → Reads ts (.array (inner.splitTopLevel ","))
  | literal {ts : Run} {value : Literal} {source : String} :
      Literal.ofRun? ts = some (value, source) → Reads ts (.literal value source)
  | new {t className : Placed} {name : String} :
      t.isKeyword "new" = true → className.name? = some name → Reads [t, className] (.new name [])
  | newWith {t className : Placed} {rest : Run} {name : String} {args : List Run} :
      t.isKeyword "new" = true → className.name? = some name → rest.arguments? = some args →
      Reads (t :: className :: rest) (.new name args)
  | function {t : Placed} {rest : Run} {args : List Run} :
      t.kind = .name → rest.arguments? = some args → Reads (t :: rest) (.call (.function t.text) args)
  | static {t sign method : Placed} {rest : Run} {name : String} {args : List Run} :
      t.kind = .name → sign.isSymbol "::" = true → method.name? = some name →
      rest.arguments? = some args →
      Reads (t :: sign :: method :: rest) (.call (.static t.text name) args)
  | method {t sign method : Placed} {rest : Run} {receiver name : String} {args : List Run} :
      t.variableName? = some receiver → sign.isSymbol "->" = true → method.name? = some name →
      rest.arguments? = some args →
      Reads (t :: sign :: method :: rest) (.call (.method receiver name) args)
  | variableName {t : Placed} {name : String} :
      t.variableName? = some name → Reads [t] (.variable name)
  | raw {ts : Run} : Reads ts .raw

theorem reads_assignment? {ts : Run} {s : Shape} (h : assignment? ts = some s) : Reads ts s := by
  unfold assignment? at h
  split at h
  · split at h
    · rename_i hsign
      obtain ⟨name, hname, rfl⟩ := Option.map_eq_some_iff.1 h
      exact .assign hname hsign (List.cons_ne_nil _ _)
    · cases h
  · cases h

theorem reads_closureBody? {isArrow : Bool} {head : ClosureHead} {ts body : Run} {s : Shape}
    (hhead : Declares ts isArrow head body) (h : closureBody? isArrow head body = some s) :
    Reads ts s := by
  unfold closureBody? at h
  split at h
  · rename_i harrow
    obtain rfl := harrow
    split at h
    · rename_i hstart
      cases h
      exact .arrow hhead hstart
    · cases h
  · rename_i harrow
    obtain rfl := Bool.eq_false_iff.2 harrow
    split at h
    · rename_i hstart
      split at h
      · rename_i inner hgroup
        cases h
        exact .block hhead hstart hgroup
      · cases h
    · cases h

theorem reads_closure? {ts : Run} {s : Shape} (h : closure? ts = some s) : Reads ts s := by
  unfold closure? at h
  split at h
  · cases h
  · rename_i hstart
    split at h
    · cases h
    · rename_i hparens
      split at h
      · cases h
      · rename_i huses
        split at h
        · cases h
        · rename_i htype
          exact reads_closureBody? (.intro hstart hparens huses htype) h

theorem reads_array? {ts : Run} {s : Shape} (h : array? ts = some s) : Reads ts s := by
  unfold array? at h
  split at h
  · rename_i hgroup
    cases h
    exact .array hgroup
  · cases h

theorem reads_literal? {ts : Run} {s : Shape} (h : literal? ts = some s) : Reads ts s := by
  obtain ⟨⟨value, source⟩, hliteral, rfl⟩ := Option.map_eq_some_iff.1 h
  exact .literal hliteral

theorem reads_new? {t : Placed} {ts : Run} {s : Shape} (ht : t.isKeyword "new" = true)
    (h : new? ts = some s) : Reads (t :: ts) s := by
  unfold new? at h
  split at h
  · cases h
  · split at h
    · cases h
    · rename_i name hname
      split at h
      · rename_i hrest
        cases h
        rw [List.isEmpty_iff.1 hrest]
        exact .new ht hname
      · obtain ⟨args, hargs, rfl⟩ := Option.map_eq_some_iff.1 h
        exact .newWith ht hname hargs

theorem exists_of_member? {operator : String} {callee : String → Callee} {ts : Run} {s : Shape}
    (h : member? operator callee ts = some s) :
    ∃ sign method rest name args, ts = sign :: method :: rest ∧ sign.isSymbol operator = true ∧
      method.name? = some name ∧ Run.arguments? rest = some args ∧ s = .call (callee name) args := by
  unfold member? at h
  split at h
  · rename_i sign method rest
    split at h
    · rename_i hsign
      split at h
      · cases h
      · rename_i name hname
        obtain ⟨args, hargs, rfl⟩ := Option.map_eq_some_iff.1 h
        exact ⟨sign, method, rest, name, args, rfl, hsign, hname, hargs, rfl⟩
    · cases h
  · cases h

theorem reads_call? {ts : Run} {s : Shape} (h : call? ts = some s) : Reads ts s := by
  cases ts with
  | nil => cases h
  | cons t rest =>
    simp only [call?] at h
    split at h
    · rename_i ht
      exact reads_new? ht h
    · split at h
      · rename_i hkind
        split at h
        · rename_i hargs
          cases h
          exact .function hkind hargs
        · obtain ⟨sign, method, rest, name, args, rfl, hsign, hname, hargs, rfl⟩ :=
            exists_of_member? h
          exact .static hkind hsign hname hargs
      · rename_i hkind
        obtain ⟨sign, method, rest, name, args, rfl, hsign, hname, hargs, rfl⟩ :=
          exists_of_member? h
        refine .method ?_ hsign hname hargs
        rw [Token.variableName?, if_pos hkind]
        rfl
      · cases h

theorem reads_variableName? {ts : Run} {s : Shape} (h : variableName? ts = some s) :
    Reads ts s := by
  unfold variableName? at h
  split at h
  · obtain ⟨name, hname, rfl⟩ := Option.map_eq_some_iff.1 h
    exact .variableName hname
  · cases h

/-- A run consists of what its form says. -/
theorem reads_of (ts : Run) : Reads ts (of ts) := by
  unfold of
  cases hs : (assignment? ts <|> closure? ts <|> array? ts <|> literal? ts <|> call? ts <|>
    variableName? ts) with
  | none => exact .raw
  | some s =>
    rw [Option.getD_some]
    simp only [Option.orElse_eq_orElse, Option.orElse_eq_or, Option.or_eq_some_iff] at hs
    rcases hs with hs | ⟨-, hs | ⟨-, hs | ⟨-, hs | ⟨-, hs | ⟨-, hs⟩⟩⟩⟩⟩
    · exact reads_assignment? hs
    · exact reads_closure? hs
    · exact reads_array? hs
    · exact reads_literal? hs
    · exact reads_call? hs
    · exact reads_variableName? hs

/-! ## Parts -/

/-- The runs still to be read. -/
def parts : Shape → List Run
  | .assign _ value => [value]
  | .arrow _ value => [value]
  | .block _ body => [body]
  | .array items => items
  | .call _ args => args
  | .new _ args => args
  | .literal .. | .variable _ | .raw => []

theorem length_of_parens? {ts inner rest : Run} (h : ts.parens? = some (inner, rest)) :
    ts.length = inner.length + 2 + rest.length := by
  unfold Run.parens? at h
  split at h
  · exact Run.length_of_group? h
  · cases h

theorem length_lt_of_arguments? {ts : Run} {args : List Run} (h : ts.arguments? = some args) :
    ∀ p ∈ args, p.length < ts.length := by
  unfold Run.arguments? at h
  split at h
  · rename_i inner hp
    cases h
    intro p hmem
    have := length_of_parens? hp
    have := Run.length_le_of_mem_splitTopLevel hmem
    simp at *; omega
  · cases h

theorem length_le_of_uses? {isArrow : Bool} {ts rest : Run} {uses : List Capture}
    (h : uses? isArrow ts = some (uses, rest)) : rest.length ≤ ts.length := by
  unfold uses? at h
  split at h
  · obtain ⟨⟨inner, rest'⟩, h', heq⟩ := Option.map_eq_some_iff.1 h
    cases heq
    have := length_of_parens? h'
    simp at this; omega
  · cases h; exact Nat.le_refl _

theorem length_le_of_returnType? {ts rest : Run} {type : Option String}
    (h : returnType? ts = some (type, rest)) : rest.length ≤ ts.length := by
  unfold returnType? at h
  split at h
  · split at h
    · cases h
    · simp only [Option.some.injEq, Prod.mk.injEq] at h
      rw [← h.2]
      refine Nat.le_trans (List.dropWhile_sublist _).length_le ?_
      simp
  · cases h; exact Nat.le_refl _

theorem length_lt_of_closureStart? {ts rest : Run} {isStatic isArrow : Bool}
    (h : closureStart? ts = some (isStatic, isArrow, rest)) : rest.length < ts.length := by
  cases ts with
  | nil => simp [closureStart?] at h
  | cons t ts =>
    simp only [closureStart?] at h
    split at h
    · cases h
    · rename_i keyword rest' heq
      have hlen : rest'.length < ts.length + 1 := by
        split at heq
        · rw [heq]; simp only [List.length_cons]; omega
        · cases heq; omega
      split at h
      · cases h; simpa using hlen
      · split at h
        · cases h; simpa using hlen
        · cases h

theorem Declares.length_lt {ts body : Run} {isArrow : Bool} {head : ClosureHead}
    (h : Declares ts isArrow head body) : body.length < ts.length := by
  obtain ⟨hstart, hparens, huses, htype⟩ := h
  have h₀ := length_lt_of_closureStart? hstart
  have h₁ := length_of_parens? hparens
  have h₂ := length_le_of_uses? huses
  have h₃ := length_le_of_returnType? htype
  split at h₁
  · rw [List.length_drop] at h₁
    omega
  · omega

theorem length_of_arrayGroup? {ts inner rest : Run} (h : arrayGroup? ts = some (inner, rest)) :
    inner.length + 2 + rest.length ≤ ts.length := by
  unfold arrayGroup? at h
  split at h
  · have := Run.length_of_group? h
    omega
  · split at h
    · have := length_of_parens? h
      simp at this; omega
    · cases h

theorem Reads.length_lt {ts : Run} {s : Shape} (h : Reads ts s) :
    ∀ p ∈ s.parts, p.length < ts.length := by
  cases h with
  | assign =>
    simp only [parts, List.mem_singleton, forall_eq, List.length_cons]
    omega
  | arrow hhead _ =>
    have := hhead.length_lt
    simp only [parts, List.mem_singleton, forall_eq, List.length_drop]
    omega
  | block hhead _ hgroup =>
    have := hhead.length_lt
    have := Run.length_of_group? hgroup
    simp only [parts, List.mem_singleton, forall_eq]
    omega
  | array hgroup =>
    intro p hp
    have := Run.length_le_of_mem_splitTopLevel hp
    have := length_of_arrayGroup? hgroup
    omega
  | newWith _ _ hargs | function _ hargs | static _ _ _ hargs | method _ _ _ hargs =>
    intro p hp
    have := length_lt_of_arguments? hargs p hp
    simp only [List.length_cons]
    omega
  | literal | new | variableName | raw => simp [parts]

/-- Every part of the form of a run is shorter than the run. -/
theorem length_lt_of_mem_parts {ts p : Run} (h : p ∈ (of ts).parts) : p.length < ts.length :=
  (reads_of ts).length_lt p h

end Shape

end CurryGen

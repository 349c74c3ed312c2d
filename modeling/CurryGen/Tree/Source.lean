import CurryGen.Error
import CurryGen.Token.Scan
import CurryGen.Tree.Statement

/-!
# Source files

The declarations of a source file: its namespace, its imports and its classes with their methods.
Declarations are read strictly, and a malformed one is an error at the place of the fault; whatever
else stands between them is passed over.

* `Run.read`, `SourceFile.read`: the tokens and the declarations of a text.
* `SourceFile.class?`, `ClassDecl.method?`: looking declarations up.
-/

namespace CurryGen

/-- A method of a class. -/
structure MethodDecl where
  /-- The documentation comment with its delimiters. -/
  doc : Option String := none
  /-- Modifiers such as `public` and `static`, in lower case. -/
  modifiers : List String := []
  name : String
  params : List Param := []
  returnType : Option String := none
  /-- The statements, or `none` for a method that is only declared. -/
  body : Option (List Stmt) := none

namespace MethodDecl

def isStatic (m : MethodDecl) : Bool := m.modifiers.contains "static"

/-- The statements of the body, if any. -/
def statements (m : MethodDecl) : List Stmt := m.body.getD []

end MethodDecl

inductive ClassKind where
  | regular
  | trait
  | interface
deriving DecidableEq, Repr

/-- The kind of class that a keyword declares. -/
def ClassKind.ofToken? (t : Token) : Option ClassKind :=
  if t.isKeyword "class" then some .regular
  else if t.isKeyword "trait" then some .trait
  else if t.isKeyword "interface" then some .interface
  else none

/-- A class, trait or interface. -/
structure ClassDecl where
  kind : ClassKind := .regular
  name : String
  methods : List MethodDecl := []

/-- The first method of a name, which ignores case. -/
def ClassDecl.method? (c : ClassDecl) (name : String) : Option MethodDecl :=
  c.methods.find? (·.name.toLower == name.toLower)

/-- The declarations of a file. -/
structure SourceFile where
  namespaceName : Option String := none
  /-- What follows the keyword of each `use` outside classes. -/
  imports : List String := []
  classes : List ClassDecl := []

/-- The first class of a name. -/
def SourceFile.class? (f : SourceFile) (name : String) : Option ClassDecl :=
  f.classes.find? (·.name == name)

namespace Declaration

/-! ## Reading declarations

The functions below take the rest of the file's tokens and return what follows the declaration, so
a declaration may reach beyond the class it began in. -/

/-- A fault at a byte offset. -/
structure Fault where
  offset : Nat
  what : Malformation
deriving DecidableEq, Repr

/-- The text that declarations are read from. -/
structure Context where
  source : List Char
  /-- The offset that stands for the end of the file: where its last token starts. -/
  last : Nat

/-- The offset of the first token of a run. -/
def Context.offset (ctx : Context) (ts : Run) : Nat :=
  match ts with
  | [] => ctx.last
  | t :: _ => t.start

/-- Whether the token is one of two symbols. -/
def isEither (a b : String) (t : Placed) : Bool := t.isSymbol a || t.isSymbol b

/-- The return type that a run may start with, and what follows it. -/
def methodType (ts : Run) : Option String × Run :=
  if ts.startsWith ":" then
    (some (Run.join ((ts.drop 1).takeWhile (!isEither "\x7b" ";" ·))),
      (ts.drop 1).dropWhile (!isEither "\x7b" ";" ·))
  else (none, ts)

/-- The body of a method, or the semicolon in its place. -/
def readBody (ctx : Context) (method : String) (ts : Run) :
    Except Fault (Option (List Stmt) × Run) :=
  if ts.startsWith ";" then .ok (none, ts.drop 1)
  else if ts.startsWith "\x7b" then
    match ts.group? with
    | none => .error ⟨ctx.offset ts, .unbalanced⟩
    | some (inner, rest) => .ok (some (readStatements ctx.source inner), rest)
  else .error ⟨ctx.offset ts, .noBody method⟩

/-- A method from its name on; `keyword` is its `function`. -/
def readMethod (ctx : Context) (doc : Option String) (modifiers : List String) (keyword : Placed)
    (ts : Run) : Except Fault (MethodDecl × Run) :=
  match (if ts.startsWith "&" then ts.drop 1 else ts) with
  | [] => .error ⟨keyword.start, .noMethodName⟩
  | t :: ts =>
    match t.name? with
    | none => .error ⟨keyword.start, .noMethodName⟩
    | some name =>
      if !Run.startsWith "(" ts then .error ⟨ctx.offset ts, .noParameters name⟩
      else match Run.group? ts with
        | none => .error ⟨ctx.offset ts, .unbalanced⟩
        | some (inner, rest) =>
          match readBody ctx name (methodType rest).2 with
          | .error e => .error e
          | .ok (body, after) =>
            .ok ({ doc, modifiers, name, params := Param.listOfRun inner,
                   returnType := (methodType rest).1, body }, after)

theorem length_methodType_le (ts : Run) : (methodType ts).2.length ≤ ts.length := by
  unfold methodType
  split
  · exact Nat.le_trans (List.dropWhile_sublist _).length_le (by simp)
  · exact Nat.le_refl _

theorem exists_of_readBody {ctx : Context} {method : String} {ts rest : Run}
    {body : Option (List Stmt)} (h : readBody ctx method ts = .ok (body, rest)) :
    body = none ∧ rest = ts.drop 1 ∨
      ∃ inner, ts.group? = some (inner, rest) ∧ body = some (readStatements ctx.source inner) := by
  unfold readBody at h
  split at h
  · cases h
    exact .inl ⟨rfl, rfl⟩
  · split at h
    · split at h
      · cases h
      · rename_i inner _ hgroup
        cases h
        exact .inr ⟨inner, hgroup, rfl⟩
    · cases h

theorem length_le_of_readBody {ctx : Context} {method : String} {ts rest : Run}
    {body : Option (List Stmt)} (h : readBody ctx method ts = .ok (body, rest)) :
    rest.length ≤ ts.length := by
  rcases exists_of_readBody h with ⟨-, rfl⟩ | ⟨inner, hgroup, -⟩
  · simp
  · have := Run.length_of_group? hgroup
    omega

/-- A method that is read has a name, parameters between brackets and a body. -/
theorem exists_of_readMethod {ctx : Context} {doc : Option String} {modifiers : List String}
    {keyword : Placed} {ts rest : Run} {m : MethodDecl}
    (h : readMethod ctx doc modifiers keyword ts = .ok (m, rest)) :
    ∃ t us inner after,
      (if ts.startsWith "&" then ts.drop 1 else ts) = t :: us ∧ t.name? = some m.name ∧
        Run.group? us = some (inner, after) ∧
        readBody ctx m.name (methodType after).2 = .ok (m.body, rest) ∧
        m = { doc, modifiers, name := m.name, params := Param.listOfRun inner,
              returnType := (methodType after).1, body := m.body } := by
  unfold readMethod at h
  split at h
  · cases h
  · rename_i t us hus
    split at h
    · cases h
    · rename_i name hname
      split at h
      · cases h
      · split at h
        · cases h
        · rename_i inner after hgroup
          split at h
          · cases h
          · rename_i body _ hbody
            cases h
            exact ⟨t, us, inner, after, hus, hname, hgroup, hbody, rfl⟩

theorem length_le_of_readMethod {ctx : Context} {doc : Option String} {modifiers : List String}
    {keyword : Placed} {ts rest : Run} {m : MethodDecl}
    (h : readMethod ctx doc modifiers keyword ts = .ok (m, rest)) : rest.length ≤ ts.length := by
  obtain ⟨t, us, inner, after, hus, -, hgroup, hbody, -⟩ := exists_of_readMethod h
  have hlen : us.length ≤ ts.length := by
    have := congrArg List.length hus
    split at this <;> simp at this <;> omega
  have h₁ := Run.length_of_group? hgroup
  have h₂ := length_methodType_le after
  have h₃ := length_le_of_readBody hbody
  omega

/-- Whether a member other than a method ends with the token `t` at bracket depth `depth`. -/
def endsMember (depth : Nat) (t : Placed) : Bool :=
  t.cutsAt ";" depth || (t.isSymbol "\x7d" && t.depthAfter depth == 0)

/-- The number of tokens through the end of a member other than a method. -/
def memberLength (depth : Nat) : Run → Nat
  | [] => 0
  | t :: ts => if endsMember depth t then 1 else memberLength (t.depthAfter depth) ts + 1

/-- The methods of a class body, which ends where only `after` tokens of the file are left. A
documentation comment and modifiers belong to the next member. -/
def readMembers (ctx : Context) (after : Nat) (doc : Option String) (modifiers : List String)
    (ts : Run) : Except Fault (List MethodDecl) :=
  if ts.length ≤ after then .ok []
  else match ts with
    | [] => .ok []
    | t :: rest =>
      if t.isDoc then readMembers ctx after (some t.text) modifiers rest
      else if t.isKeywordIn Param.modifiers then
        readMembers ctx after doc (modifiers ++ [t.text.toLower]) rest
      else if t.isKeyword "function" then
        match _h : readMethod ctx doc modifiers t rest with
        | .error e => .error e
        | .ok (method, rest) => (readMembers ctx after none [] rest).map (method :: ·)
      else
        -- properties, constants and trait uses
        readMembers ctx after none []
          (rest.drop (memberLength 0 ((t :: rest).take ((t :: rest).length - after)) - 1))
termination_by ts.length
decreasing_by
  · simp
  · simp
  · have := length_le_of_readMethod _h
    simp only [List.length_cons]; omega
  · simp only [List.length_drop, List.length_cons]; omega

/-- A class from its keyword on. -/
def readClass (ctx : Context) (kind : ClassKind) (keyword : Placed) (ts : Run) :
    Except Fault (ClassDecl × Run) :=
  match ts.head?.bind (·.name?) with
  | none => .error ⟨keyword.start, .noClassName⟩
  | some name =>
    let opening := (ts.drop 1).dropWhile (!·.isSymbol "\x7b")
    match Run.group? opening with
    | none => .error ⟨ctx.offset opening, .unbalanced⟩
    | some (_, rest) =>
      match readMembers ctx (rest.length + 1) none [] (opening.drop 1) with
      | .error e => .error e
      | .ok methods => .ok ({ kind, name, methods }, rest)

/-- A class that is read has a name, and members between brackets. -/
theorem exists_of_readClass {ctx : Context} {kind : ClassKind} {keyword : Placed}
    {ts rest : Run} {c : ClassDecl} (h : readClass ctx kind keyword ts = .ok (c, rest)) :
    ∃ name inner methods, ts.head?.bind (·.name?) = some name ∧
      Run.group? ((ts.drop 1).dropWhile (!·.isSymbol "\x7b")) = some (inner, rest) ∧
      readMembers ctx (rest.length + 1) none []
        (((ts.drop 1).dropWhile (!·.isSymbol "\x7b")).drop 1) = .ok methods ∧
      c = { kind, name, methods } := by
  unfold readClass at h
  split at h
  · cases h
  · rename_i name hname
    simp only at h
    split at h
    · cases h
    · rename_i inner _ hgroup
      split at h
      · cases h
      · rename_i methods hmethods
        cases h
        exact ⟨name, inner, methods, hname, hgroup, hmethods, rfl⟩

theorem length_le_of_readClass {ctx : Context} {kind : ClassKind} {keyword : Placed}
    {ts rest : Run} {c : ClassDecl} (h : readClass ctx kind keyword ts = .ok (c, rest)) :
    rest.length ≤ ts.length := by
  obtain ⟨name, inner, methods, -, hgroup, -, -⟩ := exists_of_readClass h
  have h₁ := Run.length_of_group? hgroup
  have h₂ := (List.dropWhile_sublist (p := fun t : Placed => !t.isSymbol "\x7b")
    (l := ts.drop 1)).length_le
  have h₃ : (ts.drop 1).length ≤ ts.length := by simp
  omega

/-- The declarations of a file; `afterScope` tells whether `::` stands just before, where
`class` is a name and no keyword. Of several namespaces the last counts. -/
def readFile (ctx : Context) (afterScope : Bool) (ts : Run) : Except Fault SourceFile :=
  match ts with
  | [] => .ok {}
  | t :: rest =>
    if t.isKeyword "namespace" then do
      let name := Run.format (rest.takeWhile (!isEither ";" "\x7b" ·))
      let file ← readFile ctx false ((rest.dropWhile (!isEither ";" "\x7b" ·)).drop 1)
      return { file with
        namespaceName := file.namespaceName <|> if name = "" then none else some name }
    else if t.isKeyword "use" then do
      let name := Run.format (rest.takeWhile (!·.isSymbol ";"))
      let file ← readFile ctx false ((rest.dropWhile (!·.isSymbol ";")).drop 1)
      return { file with imports := name :: file.imports }
    else match if afterScope then none else ClassKind.ofToken? t.toToken with
      | some kind =>
        match _h : readClass ctx kind t rest with
        | .error e => .error e
        | .ok (c, rest) => do
          let file ← readFile ctx false rest
          return { file with classes := c :: file.classes }
      | none => readFile ctx (t.isSymbol "::") rest
termination_by ts.length
decreasing_by
  · have := (List.dropWhile_sublist (p := fun t => !isEither ";" "\x7b" t) (l := rest)).length_le
    simp; omega
  · have := (List.dropWhile_sublist (p := fun t : Placed => !t.isSymbol ";") (l := rest)).length_le
    simp; omega
  · have := length_le_of_readClass _h
    simp; omega
  · simp

end Declaration

/-- The tokens of the file at `path`, whose text is `text`. -/
def Run.read (path : Path) (text : String) : Except Error Run :=
  match scan text.toList with
  | .error stuck =>
    .error (.unexpectedInput path (.ofOffset text.toList stuck.offset) stuck.snippet)
  | .ok ts => .ok ts

/-- The declarations of the file at `path`, whose text is `text`. -/
def SourceFile.read (path : Path) (text : String) : Except Error SourceFile :=
  match Run.read path text with
  | .error e => .error e
  | .ok ts =>
    match Declaration.readFile ⟨text.toList, (ts.getLast?.map (·.start)).getD 0⟩ false ts with
    | .error fault => .error (.malformed path (.ofOffset text.toList fault.offset) fault.what)
    | .ok file => .ok file

end CurryGen

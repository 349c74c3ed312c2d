import CurryGen.Template.Function

/-!
# Templates

A template is a list of functions with distinct names. A function may delegate to another: its last
top-level `return` calls a method of the same class. The inner parameters of a function are those of
the closure at the end of that chain.

* `Template.ofMethods`: the template made of method definitions.
* `Template.walk`, `Template.innerParams`: following a delegation chain.
-/

namespace CurryGen

/-- The names of the library's combinators, which a template function may return a call of. -/
structure Combinators where
  /-- Takes a closure and collects a number of arguments for it. -/
  curry : String := "curryN"
  /-- Gives a callable that takes any arguments. -/
  fix : String := "partialN"
deriving DecidableEq, Repr

structure Template where
  /-- The functions in declaration order. -/
  functions : List TemplateFunction
  combinators : Combinators
  nodup : (functions.map (·.name)).Nodup

namespace Template

/-! ## Building -/

/-- The first name that occurs among `seen` or earlier in the list. -/
def firstRepeat? (seen : List String) : List String → Option String
  | [] => none
  | name :: names => if name ∈ seen then some name else firstRepeat? (name :: seen) names

theorem nodup_of_firstRepeat? {seen names : List String} (h : firstRepeat? seen names = none) :
    names.Nodup ∧ ∀ name ∈ names, name ∉ seen := by
  induction names generalizing seen with
  | nil => simp
  | cons name names ih =>
    rw [firstRepeat?] at h
    split at h
    · cases h
    · rename_i hseen
      obtain ⟨hnodup, hdisjoint⟩ := ih h
      refine ⟨List.nodup_cons.2 ⟨fun hmem => hdisjoint _ hmem (by simp), hnodup⟩, ?_⟩
      intro other hother
      rcases List.mem_cons.1 hother with rfl | hother
      · exact hseen
      · exact fun hmem => hdisjoint _ hother (List.mem_cons_of_mem _ hmem)

/-- The template made of method definitions. A name that is declared twice is an error. -/
def ofMethods (methods : List MethodDecl) (combinators : Combinators) : Except Error Template :=
  match h : firstRepeat? [] (methods.map (·.name)) with
  | some name => .error (.duplicateFunction name)
  | none =>
    .ok
      { functions := methods.map TemplateFunction.mk
        combinators
        nodup := by
          rw [List.map_map]
          exact (nodup_of_firstRepeat? h).1 }

/-- The template made of the static methods of a class. -/
def ofClass (c : ClassDecl) (combinators : Combinators) : Except Error Template :=
  ofMethods (c.methods.filter (·.isStatic)) combinators

theorem functions_ofClass {c : ClassDecl} {combinators : Combinators} {t : Template}
    (h : ofClass c combinators = .ok t) :
    t.functions = (c.methods.filter (·.isStatic)).map TemplateFunction.mk := by
  unfold ofClass ofMethods at h
  split at h
  · cases h
  · cases h
    rfl

/-! ## Looking up -/

def names (t : Template) : List String := t.functions.map (·.name)

def size (t : Template) : Nat := t.functions.length

def isEmpty (t : Template) : Bool := t.functions.isEmpty

def find? (t : Template) (name : String) : Option TemplateFunction :=
  t.functions.find? (·.name == name)

def contains (t : Template) (name : String) : Bool := t.names.contains name

/-- The function of a name. -/
def get (t : Template) (name : String) : Except Error TemplateFunction :=
  match t.find? name with
  | some f => .ok f
  | none => .error (.unknownFunction name)

/-! ## Delegation -/

/-- Where the inner parameters of a function come from. -/
inductive Delegation where
  | params (params : List Param)
  /-- They are those of another function of the template. -/
  | function (name : String)
deriving DecidableEq, Repr

/-- Whether a class name stands for the class it is used in. -/
def isOwnClass (name : String) : Bool := name.toLower == "static" || name.toLower == "self"

/-- What a returned expression says about the inner parameters: a closure has its own, and a call of
the same class those of the template function it calls. The curry combinator has the parameters of
its first closure argument, the other combinator takes any arguments, and all else has none. -/
def delegation (t : Template) : Expr → Delegation
  | .closure head _ => .params head.params
  | .call (.static className method) args =>
    if !isOwnClass className then .params []
    else if t.contains method then .function method
    else if method = t.combinators.curry then
      .params ((args.findSome? Expr.closureParams?).getD [])
    else if method = t.combinators.fix then
      .params [{ name := Signature.collectedArguments, variadic := true }]
    else .params []
  | _ => .params []

/-- The value of the last top-level `return` of a function that has one. -/
def returned? (f : TemplateFunction) : Option Expr := f.statements.reverse.findSome? Stmt.returned?

/-- The number of functions that a walk through `visited` has not met. -/
def unvisited (t : Template) (visited : List String) : Nat :=
  t.functions.countP (·.name ∉ visited)

theorem unvisited_append_lt {t : Template} {visited : List String} {name : String}
    {f : TemplateFunction} (h : t.find? name = some f) (hv : name ∉ visited) :
    t.unvisited (visited ++ [name]) < t.unvisited visited := by
  have hmem : f ∈ t.functions := List.mem_of_find?_eq_some h
  have hname : f.name = name := by simpa using List.find?_some h
  obtain ⟨before, after, hsplit⟩ := List.append_of_mem hmem
  have hle (fs : List TemplateFunction) :
      fs.countP (·.name ∉ visited ++ [name]) ≤ fs.countP (·.name ∉ visited) :=
    List.countP_mono_left fun g _ hg => by simp_all
  have hbefore := hle before
  have hafter := hle after
  simp only [unvisited, hsplit, List.countP_append, List.countP_cons]
  simp [hname, hv] at hbefore hafter ⊢
  omega

/-- Follows the delegation of `name`. The names in `visited` are those on the way here, and meeting
one of them again closes a circle. -/
def walk (t : Template) (visited : List String) (name : String) : Except Error (List Param) :=
  match _h : t.find? name with
  | none => .error (.unknownFunction name)
  | some f =>
    if _hv : name ∈ visited then .error (.cyclicDelegation (visited ++ [name]))
    else
      match returned? f with
      | none => .error (.missingReturn name)
      | some value =>
        match t.delegation value with
        | .params params => .ok params
        | .function next => walk t (visited ++ [name]) next
termination_by t.unvisited visited
decreasing_by exact unvisited_append_lt _h _hv

/-- The parameters of the callable that calling the function of this name leads to. -/
def innerParams (t : Template) (name : String) : Except Error (List Param) :=
  t.walk [] name

end Template

end CurryGen

import CurryGen.Proofs.Tree.RenderedPieces
import CurryGen.Proofs.Tree.Split

/-!
# Rendered expressions

An expression that is read from a run has two texts, one plain and one qualified, and together they
render the run. This is shown form by form, for runs of a length up to which all expressions are
rendered. Closures, which hold statements, come later.

* `Expr.closures`, `ClosureHead.CallsNothing`: the closures in an expression, and those that declare
  nothing with a call of a library function. What a closure declares is never qualified.
* `Print.RendersBelow`: what is assumed of shorter runs.
* `Print.Renders.assign`, `Print.Renders.function`, `Print.Renders.member`, `Print.Renders.new`,
  `Print.Renders.newWith`, `Print.Renders.variableName`, `Print.Renders.literal`,
  `Print.Renders.array`: one lemma for each form.
-/

namespace CurryGen

open Scan Token

/-! ## Closures in expressions and statements -/

mutual

/-- What the closures in an expression declare, as far as the expression has structure. -/
def Expr.closures : Expr → List ClosureHead
  | .assign _ value => value.closures
  | .call _ args => closuresOfExprs args
  | .new _ args => closuresOfExprs args
  | .closure head body => head :: body.closures
  | .array items => closuresOfItems items
  | .variable _ => []
  | .literal _ _ => []
  | .raw _ => []

def closuresOfExprs : List Expr → List ClosureHead
  | [] => []
  | e :: es => e.closures ++ closuresOfExprs es

def ArrayItem.closures : ArrayItem → List ClosureHead
  | .value value => value.closures
  | .entry key value => key.closures ++ value.closures
  | .spread value => value.closures

def closuresOfItems : List ArrayItem → List ClosureHead
  | [] => []
  | item :: items => item.closures ++ closuresOfItems items

def ClosureBody.closures : ClosureBody → List ClosureHead
  | .arrow value => value.closures
  | .block statements => closuresOfStatements statements

def Stmt.closures : Stmt → List ClosureHead
  | .mk (.ret (some value)) _ _ => value.closures
  | .mk (.ret none) _ _ => []
  | .mk (.expr value) _ _ => value.closures
  | .mk .block _ _ => []

def closuresOfStatements : List Stmt → List ClosureHead
  | [] => []
  | s :: ss => s.closures ++ closuresOfStatements ss

end

theorem mem_closuresOfExprs {head : ClosureHead} {es : List Expr} :
    head ∈ closuresOfExprs es ↔ ∃ e ∈ es, head ∈ e.closures := by
  induction es with
  | nil => simp [closuresOfExprs]
  | cons e es ih => simp [closuresOfExprs, ih]

theorem mem_closuresOfItems {head : ClosureHead} {items : List ArrayItem} :
    head ∈ closuresOfItems items ↔ ∃ item ∈ items, head ∈ item.closures := by
  induction items with
  | nil => simp [closuresOfItems]
  | cons item items ih => simp [closuresOfItems, ih]

theorem mem_closuresOfStatements {head : ClosureHead} {ss : List Stmt} :
    head ∈ closuresOfStatements ss ↔ ∃ s ∈ ss, head ∈ s.closures := by
  induction ss with
  | nil => simp [closuresOfStatements]
  | cons s ss ih => simp [closuresOfStatements, ih]

/-- No library function is called in what a closure declares as text: its parameters with their
types and defaults, and its return type. -/
def ClosureHead.CallsNothing (q : Qualifier) (head : ClosureHead) : Prop :=
  (∀ p ∈ head.params, Print.CallsNothing q p.declaration) ∧
    ∀ type ∈ head.returnType, Print.CallsNothing q type

/-! ## Forms -/

namespace Run

variable {ts inner rest : Run}

theorem exists_of_parens? (h : ts.parens? = some (inner, rest)) :
    ∃ opening close, ts = opening :: (inner ++ close :: rest) ∧ opening.isSymbol "(" = true ∧
      close.isClose = true ∧ balanced 0 inner.tokens = true := by
  unfold parens? at h
  split at h
  · rename_i hstart
    obtain ⟨opening, close, rfl, -, hclose, hbalanced⟩ := group?_eq_some_iff.1 h
    exact ⟨opening, close, rfl, by simpa [startsWith] using hstart, hclose, hbalanced⟩
  · cases h

theorem exists_of_arguments? {args : List Run} (h : ts.arguments? = some args) :
    ∃ opening close inner, ts = opening :: (inner ++ [close]) ∧ opening.isSymbol "(" = true ∧
      close.isClose = true ∧ args = splitTopLevel "," inner := by
  unfold arguments? at h
  split at h
  · rename_i inner hparens
    cases h
    obtain ⟨opening, close, hts, hopening, hclose, -⟩ := exists_of_parens? hparens
    exact ⟨opening, close, inner, hts, hopening, hclose, rfl⟩
  · cases h

theorem exists_of_breakFrom {symbol : String} {depth : Nat} {before after : Run}
    (h : breakFrom symbol depth ts = some (before, after)) :
    ∃ t, ts = before ++ t :: after ∧ t.isSymbol symbol = true := by
  induction ts generalizing depth before with
  | nil => cases h
  | cons t ts ih =>
    rw [breakFrom] at h
    split at h
    · rename_i hcut
      cases h
      exact ⟨t, rfl, (Bool.and_eq_true_iff.1 hcut).2⟩
    · obtain ⟨⟨before', after'⟩, h', heq⟩ := Option.map_eq_some_iff.1 h
      cases heq
      obtain ⟨u, rfl, hu⟩ := ih h'
      exact ⟨u, rfl, hu⟩

/-- Tokens of code: each stands alone, and none is a documentation comment. -/
def IsCode (ts : Run) : Prop := ∀ t ∈ ts.tokens, Stands t [] ∧ t.isDoc = false

theorem IsCode.of_sublist {us : Run} (h : ts.IsCode) (hus : us.Sublist ts) : us.IsCode :=
  fun t ht => h t ((hus.map Placed.toToken).subset ht)

end Run

/-- The expression of a form. The parts of the form are read. -/
def Shape.toExpr (source : List Char) (ts : Run) : Shape → Expr
  | .assign target value => .assign target (readExpr source value)
  | .arrow head value => .closure head (.arrow (readExpr source value))
  | .block head body => .closure head (.block (readStatements source body))
  | .array items => .array (items.map (readItem source))
  | .literal value text => .literal value text
  | .call callee args => .call callee (args.map (readExpr source))
  | .new className args => .new className (args.map (readExpr source))
  | .variable name => .variable name
  | .raw => .raw ts.tokens

theorem readExpr_eq_toExpr (source : List Char) (ts : Run) :
    readExpr source ts = (Shape.of ts).toExpr source ts := by
  rw [readExpr_eq]
  cases Shape.of ts <;> rfl

namespace Print

variable {q : Qualifier} {source : List Char} {previous next : Option Token} {ts : Run}

/-- The two texts of an expression render a run. -/
def RendersExpr (q : Qualifier) (previous : Option Token) (ts : Run) (next : Option Token)
    (e : Expr) : Prop :=
  Renders q previous ts.tokens next (e.print none) (e.print (some q))

/-- Expressions that are read from fewer tokens than `n` render them. -/
def RendersBelow (q : Qualifier) (source : List Char) (n : Nat) : Prop :=
  ∀ us : Run, us.length < n → us.IsCode →
    (∀ head ∈ (readExpr source us).closures, head.CallsNothing q) →
    ∀ previous next, Starts previous → Stops next →
      RendersExpr q previous us next (readExpr source us)

namespace Renders

theorem assign {target sign : Placed} {value : Run} {name : String}
    (ih : RendersBelow q source (target :: sign :: value).length)
    (hcode : Run.IsCode (target :: sign :: value)) (hname : target.variableName? = some name)
    (hsign : sign.isSymbol "=" = true)
    (hheads : ∀ head ∈ (readExpr source value).closures, head.CallsNothing q)
    (hstops : Stops next) :
    RendersExpr q previous (target :: sign :: value) next (.assign name (readExpr source value)) := by
  have hsublist : value.Sublist (target :: sign :: value) :=
    (List.sublist_cons_self _ _).trans (List.sublist_cons_self _ _)
  have hvalue := ih value (by simp) (hcode.of_sublist hsublist) hheads (some sign.toToken) next
    (starts_of_isSymbol hsign (by decide)) hstops
  obtain ⟨hkind, htext⟩ := (hcode _ List.mem_cons_self).1.text_of_variableName? hname
  unfold RendersExpr at hvalue ⊢
  rw [Expr.print, Expr.print, ← htext, String.append_assoc, String.append_assoc]
  exact cons (plain (by simp [callsLibrary, hkind])) (cons (symbol hsign (by decide)) hvalue)

/-- Arguments in their parentheses. -/
theorem arguments {n : Nat} {args : List Run} (ih : RendersBelow q source n) (hn : ts.length ≤ n)
    (hcode : ts.IsCode)
    (hheads : ∀ head ∈ closuresOfExprs (args.map (readExpr source)), head.CallsNothing q)
    (h : ts.arguments? = some args) :
    Renders q previous ts.tokens next
      ("(" ++ ", ".intercalate (printExprs none (args.map (readExpr source))) ++ ")")
      ("(" ++ ", ".intercalate (printExprs (some q) (args.map (readExpr source))) ++ ")") := by
  obtain ⟨opening, close, inner, rfl, hopening, hclose, rfl⟩ := Run.exists_of_arguments? h
  have hinner : inner.Sublist (opening :: (inner ++ [close])) :=
    (List.sublist_append_left inner _).trans (List.sublist_cons_self _ _)
  rw [printExprs_eq_map, printExprs_eq_map, List.map_map, List.map_map, Run.tokens_cons,
    Run.tokens_append, String.append_assoc, String.append_assoc]
  refine cons (symbol hopening (by decide)) (append
    (list (fun arg harg previous next hstarts hstops => ?_) (starts_of_isSymbol hopening (by decide))
      (stops_of_isClose hclose)) (closing hclose (by decide)))
  refine ih arg ?_ (hcode.of_sublist ((Run.sublist_of_mem_splitTopLevel harg).trans hinner)) ?_ _ _
    hstarts hstops
  · have := Run.length_le_of_mem_splitTopLevel harg
    simp at hn
    omega
  · exact fun head hhead => hheads head (mem_closuresOfExprs.2 ⟨_, List.mem_map_of_mem harg, hhead⟩)

/-- `new` and the name of a class before what is rendered. -/
theorem newClass {t c : Token} {rest : List Token} {className s s' : String} (hstands : Stands t [])
    (ht : t.isKeyword "new" = true) (hname : c.name? = some className)
    (hrest : Renders q (some c) rest next s s') :
    Renders q previous (t :: c :: rest) next ("new " ++ (className ++ s))
      ("new " ++ (className ++ s')) := by
  obtain ⟨hkind, rfl⟩ := name?_eq_some_iff.1 hname
  refine cons (keyword ht hstands (by decide) fun _ => by simp [isSymbol, hkind]) (cons ?_ hrest)
  exact plain (callsLibrary_of_introduces (introduces_of_isKeyword ht (by decide)) _ _)

theorem new {t c : Placed} {className : String} (hcode : Run.IsCode [t, c])
    (ht : t.isKeyword "new" = true) (hname : c.name? = some className) (hstops : Stops next) :
    RendersExpr q previous [t, c] next (.new className []) := by
  have hadded : Renders q (some c.toToken) [] next "()" "()" :=
    @added q (some c.toToken) next "()" "(" (by decide) (by decide) (by decide)
      hstops.ne_parenthesis
  have hall := @newClass q previous next _ _ _ _ _ _ (hcode _ List.mem_cons_self).1 ht hname hadded
  simpa [RendersExpr, Expr.print, printExprs, Run.tokens, String.append_assoc] using hall

theorem newWith {t c : Placed} {rest : Run} {className : String} {args : List Run}
    (ih : RendersBelow q source (t :: c :: rest).length) (hcode : Run.IsCode (t :: c :: rest))
    (hheads : ∀ head ∈ closuresOfExprs (args.map (readExpr source)), head.CallsNothing q)
    (ht : t.isKeyword "new" = true) (hname : c.name? = some className)
    (hargs : rest.arguments? = some args) :
    RendersExpr q previous (t :: c :: rest) next (.new className (args.map (readExpr source))) := by
  have hrest : rest.Sublist (t :: c :: rest) :=
    (List.sublist_cons_self _ _).trans (List.sublist_cons_self _ _)
  have hargs := @arguments q source (some c.toToken) next _ _ _ ih hrest.length_le
    (hcode.of_sublist hrest) hheads hargs
  have hall := @newClass q previous next _ _ _ _ _ _ (hcode _ List.mem_cons_self).1 ht hname hargs
  simpa [RendersExpr, Run.tokens_cons, Expr.print, String.append_assoc] using hall

/-- A call of a member, static or of a variable. -/
theorem member {t sign method : Placed} {rest : Run} {operator name : String} {callee : Callee}
    {args : List Run} (ih : RendersBelow q source (t :: sign :: method :: rest).length)
    (hcode : Run.IsCode (t :: sign :: method :: rest))
    (hheads : ∀ head ∈ closuresOfExprs (args.map (readExpr source)), head.CallsNothing q)
    (hoperator : operator ∈ ["::", "->", "?->"]) (hsign : sign.isSymbol operator = true)
    (hname : method.name? = some name)
    (hcallee : ∀ q, Print.callee q callee = t.text ++ operator ++ name)
    (hargs : rest.arguments? = some args) :
    RendersExpr q previous (t :: sign :: method :: rest) next
      (.call callee (args.map (readExpr source))) := by
  obtain ⟨-, rfl⟩ := name?_eq_some_iff.1 hname
  have hrest : rest.Sublist (t :: sign :: method :: rest) :=
    ((List.sublist_cons_self _ _).trans (List.sublist_cons_self _ _)).trans
      (List.sublist_cons_self _ _)
  have hargs := @arguments q source (some method.toToken) next _ _ _ ih
    hrest.length_le (hcode.of_sublist hrest) hheads hargs
  have hfirst : callsLibrary q previous t.toToken (some sign.toToken) = false := by
    have hne : operator ≠ "(" := by
      rintro rfl
      exact absurd hoperator (by decide)
    have hstops : (some sign.toToken).any (·.isSymbol "(") = false :=
      stops_of_isSymbol hsign hne
    simp only [callsLibrary, hstops, Bool.and_false, Bool.false_and]
  have hmethod (next : Option Token) : Renders q (some sign.toToken) [method.toToken] next
      method.text method.text :=
    plain (callsLibrary_of_introduces (introduces_of_isSymbol hsign hoperator) _ _)
  have hsymbol : Text.weight operator.toList ≤ Text.weight operator.toList ∧
      Text.Alike operator.toList operator.toList := ⟨Nat.le_refl _, rfl, rfl, rfl⟩
  have hall : Renders q previous _ next _ _ :=
    cons (plain hfirst) (cons (symbol hsign hsymbol) (cons (hmethod _) hargs))
  rw [RendersExpr, Run.tokens_cons, Run.tokens_cons, Run.tokens_cons]
  simpa [Expr.print, hcallee, String.append_assoc] using hall

theorem function {t : Placed} {rest : Run} {args : List Run}
    (ih : RendersBelow q source (t :: rest).length) (hcode : Run.IsCode (t :: rest))
    (hheads : ∀ head ∈ closuresOfExprs (args.map (readExpr source)), head.CallsNothing q)
    (hstarts : Starts previous) (hkind : t.kind = .name) (hargs : rest.arguments? = some args) :
    RendersExpr q previous (t :: rest) next
      (.call (.function t.text) (args.map (readExpr source))) := by
  obtain ⟨opening, close, inner, rfl, hopening, -, -⟩ := Run.exists_of_arguments? hargs
  have hmarked : ∀ next', marked q previous t.toToken
      ((some opening.toToken).or next') = Print.callee (some q) (.function t.text) := by
    intro next'
    have hstarts : previous.any introducesMember = false := hstarts
    simp [marked, callsLibrary, hkind, hstarts, hopening, Print.callee]
  have hrest := List.sublist_cons_self t (opening :: (inner ++ [close]))
  have hargs := @arguments q source (some t.toToken) next _ _ _ ih hrest.length_le
    (hcode.of_sublist hrest) hheads hargs
  have hall := cons (token q previous t.toToken _) hargs
  rw [Run.tokens_cons, List.head?_cons, hmarked, ← Run.tokens_cons, ← Run.tokens_cons] at hall
  unfold RendersExpr
  simpa [Expr.print, Print.callee, String.append_assoc] using hall

/-! ### Variables, literals and arrays -/

theorem variableName {t : Placed} {name : String} (hcode : Run.IsCode [t])
    (hname : t.variableName? = some name) : RendersExpr q previous [t] next (.variable name) := by
  obtain ⟨hkind, htext⟩ := (hcode _ List.mem_cons_self).1.text_of_variableName? hname
  rw [RendersExpr, Expr.print, Expr.print, ← htext]
  exact plain (by simp [callsLibrary, hkind])

theorem literal {value : Literal} {text : String} (hstops : Stops next)
    (hread : Literal.ofRun? ts = some (value, text)) :
    RendersExpr q previous ts next (.literal value text) := by
  have hplain (previous : Option Token) (t : Placed) :
      Renders q previous [t.toToken] next t.text t.text := by
    have hstops : next.any (·.isSymbol "(") = false := hstops
    exact plain (by simp only [callsLibrary, hstops, Bool.and_false, Bool.false_and])
  rw [RendersExpr, Expr.print, Expr.print]
  rcases Literal.exists_of_ofRun? hread with ⟨t, rfl, -, rfl⟩ | ⟨sign, t, rfl, hsign, -, rfl⟩
  · exact hplain previous t
  · exact cons (symbol hsign (by decide)) (hplain _ _)

theorem item {n : Nat} {piece : Run} (ih : RendersBelow q source n) (hn : piece.length < n)
    (hcode : piece.IsCode)
    (hheads : ∀ head ∈ (readItem source piece).closures, head.CallsNothing q)
    (hstarts : Starts previous) (hstops : Stops next) :
    Renders q previous piece.tokens next ((readItem source piece).print none)
      ((readItem source piece).print (some q)) := by
  generalize hitem : readItem source piece = item at hheads ⊢
  rw [readItem] at hitem
  have hall (hheads : ∀ head ∈ (readExpr source piece).closures, head.CallsNothing q) :=
    ih piece hn hcode hheads previous next hstarts hstops
  split at hitem
  · rename_i hdots
    subst hitem
    cases piece with
    | nil => cases hdots
    | cons t rest =>
      have ht : t.isSymbol "..." = true := by simpa [Run.startsWith] using hdots
      have hvalue := ih rest (Nat.lt_trans (Nat.lt_succ_self _) hn)
        (hcode.of_sublist (List.sublist_cons_self _ _)) hheads (some t.toToken) next
        (starts_of_isSymbol ht (by decide)) hstops
      rw [ArrayItem.print, ArrayItem.print, Run.tokens_cons]
      exact cons (symbol ht (by decide)) hvalue
  · split at hitem
    · rename_i key value hbreak
      split at hitem <;> subst hitem
      · exact hall hheads
      · obtain ⟨t, rfl, ht⟩ := Run.exists_of_breakFrom hbreak
        obtain ⟨hkeys, hvalues⟩ := List.forall_mem_append.1 hheads
        obtain ⟨hkey, hvalue⟩ := Run.sublist_of_breakFrom hbreak
        simp only [List.length_append, List.length_cons] at hn
        have hkey := ih key (by omega) (hcode.of_sublist hkey) hkeys previous (some t.toToken)
          hstarts (stops_of_isSymbol ht (by decide))
        have hvalue := ih value (by omega) (hcode.of_sublist hvalue) hvalues (some t.toToken) next
          (starts_of_isSymbol ht (by decide)) hstops
        have hentry : Renders q previous (Run.tokens key ++ t.toToken :: Run.tokens value) next _ _ :=
          append hkey (cons (symbol ht (j := " => ") (by decide)) hvalue)
        rw [Run.tokens_append, Run.tokens_cons]
        simpa [ArrayItem.print, String.append_assoc] using hentry
    · subst hitem
      exact hall hheads

/-- A keyword that is left out. -/
theorem skip_keyword {t : Token} {us : List Token} {word s s' : String} (ht : t.isKeyword word = true)
    (hstands : Stands t []) (h : Renders q (some t) us next s s') :
    Renders q previous (t :: us) next s s' := by
  have hweight : 0 < Text.weight (texts [t]) := by
    simpa using hstands.weight_pos (by rw [kind_of_isKeywordIn ht]; decide)
  exact skip_weighty hweight h

/-- The items of an array up to its closing bracket. -/
theorem items {n : Nat} {inner : Run} {close : Placed} (ih : RendersBelow q source n)
    (hn : inner.length < n) (hcode : inner.IsCode)
    (hheads : ∀ head ∈ closuresOfItems ((inner.splitTopLevel ",").map (readItem source)),
      head.CallsNothing q)
    (hclose : close.isClose = true) (hstarts : Starts previous) :
    Renders q previous (inner.tokens ++ [close.toToken]) next
      (", ".intercalate (printItems none ((inner.splitTopLevel ",").map (readItem source))) ++ "]")
      (", ".intercalate (printItems (some q) ((inner.splitTopLevel ",").map (readItem source))) ++
        "]") := by
  rw [printItems_eq_map, printItems_eq_map, List.map_map, List.map_map]
  refine append (list (fun piece hpiece previous next hstarts hstops => ?_) hstarts
    (stops_of_isClose hclose)) (closing hclose (by decide))
  refine item ih ?_ (hcode.of_sublist (Run.sublist_of_mem_splitTopLevel hpiece)) ?_ hstarts hstops
  · exact Nat.lt_of_le_of_lt (Run.length_le_of_mem_splitTopLevel hpiece) hn
  · exact fun head hhead =>
      hheads head (mem_closuresOfItems.2 ⟨_, List.mem_map_of_mem hpiece, hhead⟩)

theorem array {inner : Run} (ih : RendersBelow q source ts.length) (hcode : ts.IsCode)
    (hheads : ∀ head ∈ closuresOfItems ((inner.splitTopLevel ",").map (readItem source)),
      head.CallsNothing q)
    (hgroup : Shape.arrayGroup? ts = some (inner, [])) :
    RendersExpr q previous ts next (.array ((inner.splitTopLevel ",").map (readItem source))) := by
  have hlength := Shape.length_of_arrayGroup? hgroup
  have hinner := hcode.of_sublist (Shape.sublist_of_arrayGroup? hgroup)
  rw [RendersExpr, Expr.print, Expr.print, String.append_assoc, String.append_assoc]
  unfold Shape.arrayGroup? at hgroup
  split at hgroup
  · rename_i hstart
    obtain ⟨bracket, close, rfl, -, hclose, -⟩ := Run.group?_eq_some_iff.1 hgroup
    have hbracket : bracket.isSymbol "[" = true := by simpa [Run.startsWith] using hstart
    rw [Run.tokens_cons, Run.tokens_append]
    exact cons (symbol hbracket (by decide)) (items ih (by omega) hinner hheads hclose
      (starts_of_isSymbol hbracket (by decide)))
  · split at hgroup
    · rename_i hkeyword
      cases ts with
      | nil => cases hkeyword
      | cons t rest =>
        obtain ⟨bracket, close, hrest, hbracket, hclose, -⟩ := Run.exists_of_parens? hgroup
        obtain rfl : rest = bracket :: (inner ++ [close]) := hrest
        rw [Run.tokens_cons, Run.tokens_cons, Run.tokens_append]
        exact skip_keyword hkeyword (hcode _ List.mem_cons_self).1
          (cons (symbol hbracket (by decide)) (items ih (by omega) hinner hheads hclose
            (starts_of_isSymbol hbracket (by decide))))
    · cases hgroup

end Renders

end Print

end CurryGen

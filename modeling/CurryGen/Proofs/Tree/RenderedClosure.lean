import CurryGen.Proofs.Tree.RenderedStatement

/-!
# Rendered closures

The text of a closure follows its tokens from one part to the next: keywords, parameters, captures,
return type and body. Each lemma here says of one part that if the rest is rendered, so are the part
and the rest, whatever stands in front.

* `ClosureBody.text`, `Expr.print_closure`: the text of a closure, part by part.
* `Print.Renders.declares`: what a closure declares is rendered in front of its body.
* `Print.Renders.arrow`, `Print.Renders.block`: closures are rendered.
-/

namespace CurryGen

open Scan Token

/-- A closure's body on one line, with what stands between it and what is declared before it. -/
def ClosureBody.text (q : Option Qualifier) : ClosureBody → String
  | .arrow value => " => " ++ value.print q
  | .block statements =>
    " \x7b" ++
    (match printStatements q statements with
      | [] => ""
      | texts => " " ++ " ".intercalate texts ++ " ") ++
    "\x7d"

def ClosureBody.isArrow : ClosureBody → Bool
  | .arrow _ => true
  | .block _ => false

theorem ClosureBody.text_block_cons (q : Option Qualifier) (s : Stmt) (ss : List Stmt) :
    (ClosureBody.block (s :: ss)).text q =
      " \x7b" ++ ((" " ++ " ".intercalate (printStatements q (s :: ss))) ++ (" " ++ "\x7d")) := by
  simp [-String.reduceAppend, text, printStatements, String.append_assoc]

/-- The text of a closure, part by part. -/
theorem Expr.print_closure (q : Option Qualifier) {head : ClosureHead} {body : ClosureBody}
    (h : body.isArrow = true → head.uses = []) :
    (Expr.closure head body).print q =
      (if head.isStatic then "static " else "") ++ ((if body.isArrow then "fn " else "function ") ++
        ("(" ++ ((Param.list head.params ++ ")") ++ (Print.uses head.uses ++
          (Print.returnType head.returnType ++ body.text q))))) := by
  have hfn : "fn (" = "fn " ++ "(" := rfl
  have hfunction : "function (" = "function " ++ "(" := rfl
  cases body with
  | arrow value =>
    rw [h rfl, Expr.print, ClosureBody.print, hfn]
    simp [-String.reduceAppend, ClosureBody.text, ClosureBody.isArrow, Print.uses, String.append_assoc]
  | block statements =>
    rw [Expr.print, ClosureBody.print, hfunction]
    simp only [-String.reduceAppend, ClosureBody.text, ClosureBody.isArrow, String.append_assoc]
    cases printStatements q statements <;> rfl

theorem Print.uses_of_ne_nil {captured : List Capture} (h : captured ≠ []) :
    uses captured =
      " use " ++ ("(" ++ (", ".intercalate (captured.map Capture.text) ++ ")")) := by
  have huse : " use (" = " use " ++ "(" := rfl
  rw [uses, if_neg (by simpa using h), huse, String.append_assoc, String.append_assoc]
  rfl

/-- The tokens of a group and of what follows it. -/
theorem Run.tokens_group (opening close : Placed) (inner rest : Run) :
    Run.tokens (opening :: (inner ++ close :: rest)) =
      opening.toToken :: ((inner.tokens ++ [close.toToken]) ++ rest.tokens) := by
  simp [Run.tokens]

theorem Run.toList_join (ts : Run) : ts.join.toList = texts ts.tokens := by
  simp [Run.join, String.toList_join, texts, Run.tokens, List.flatMap_map]

/-- Arrow functions capture without saying so. -/
theorem Shape.Declares.uses_eq_nil {ts body : Run} {head : ClosureHead}
    (h : Declares ts true head body) : head.uses = [] := by
  obtain ⟨-, -, huses, -⟩ := h
  rw [uses?] at huses
  cases huses
  rfl

namespace Print.Renders

variable {q : Qualifier} {source : List Char} {previous next : Option Token} {ts rest : Run}
  {s s' : String}

theorem closureStart? {isStatic isArrow : Bool} (hkeywords : q.SparesKeywords) (hcode : ts.IsCode)
    (h : Shape.closureStart? ts = some (isStatic, isArrow, rest))
    (hrest : ∀ previous, Renders q previous rest.tokens next s s') :
    Renders q previous ts.tokens next
      ((if isStatic then "static " else "") ++ ((if isArrow then "fn " else "function ") ++ s))
      ((if isStatic then "static " else "") ++
        ((if isArrow then "fn " else "function ") ++ s')) := by
  have hspares {word : String} (hword : word ∈ ["function", "fn", "use", "return"])
      (next : Option Token) : word ∈ q.functions → next.any (·.isSymbol "(") = false :=
    fun h => absurd h (hkeywords word hword)
  have hkeyword {t : Placed} {us : Run} {b : Bool} (hstands : Stands t.toToken [])
      (h : (if t.isKeyword "fn" then some (b, true, us)
        else if t.isKeyword "function" then some (b, false, us) else none) =
          some (isStatic, isArrow, rest)) (previous : Option Token) :
      b = isStatic ∧ t.kind = .name ∧ Renders q previous (Run.tokens (t :: us)) next
        ((if isArrow then "fn " else "function ") ++ s)
        ((if isArrow then "fn " else "function ") ++ s') := by
    split at h
    · rename_i hfn
      cases h
      exact ⟨rfl, kind_of_isKeywordIn hfn,
        cons (keyword hfn hstands (by decide) (hspares (by decide) _)) (hrest _)⟩
    · split at h
      · rename_i hfunction
        cases h
        exact ⟨rfl, kind_of_isKeywordIn hfunction,
          cons (keyword hfunction hstands (by decide) (hspares (by decide) _)) (hrest _)⟩
      · cases h
  cases ts with
  | nil => cases h
  | cons t ts =>
    simp only [Shape.closureStart?] at h
    cases hstatic : t.isKeyword "static" with
    | true =>
      simp only [hstatic, if_true] at h
      cases ts with
      | nil => cases h
      | cons u us =>
        have hu := (hcode u.toToken (by simp [Run.tokens])).1
        obtain ⟨rfl, hkind, hall⟩ := hkeyword hu h (some t.toToken)
        refine cons (keyword hstatic (hcode _ List.mem_cons_self).1 (by decide) fun _ => ?_) hall
        simp [isSymbol, hkind]
    | false =>
      simp only [hstatic, Bool.false_eq_true, if_false] at h
      obtain ⟨rfl, -, hall⟩ := hkeyword (hcode _ List.mem_cons_self).1 h previous
      simpa using hall

theorem uses? {isArrow : Bool} {captured : List Capture} (hkeywords : q.SparesKeywords)
    (hcode : ts.IsCode) (h : Shape.uses? isArrow ts = some (captured, rest))
    (hrest : ∀ previous, Renders q previous rest.tokens next s s') :
    Renders q previous ts.tokens next (uses captured ++ s) (uses captured ++ s') := by
  unfold Shape.uses? at h
  split at h
  · rename_i hstart
    obtain ⟨⟨inner, rest'⟩, hparens, heq⟩ := Option.map_eq_some_iff.1 h
    cases heq
    simp only [Bool.and_eq_true] at hstart
    cases ts with
    | nil => simp at hstart
    | cons t ts =>
      have ht : t.isKeyword "use" = true := hstart.2
      obtain ⟨opening, close, hts, hopening, hclose, hbalanced⟩ := Run.exists_of_parens? hparens
      obtain rfl : ts = opening :: (inner ++ close :: rest) := hts
      have huse := (hcode _ List.mem_cons_self).1
      rw [Run.IsCode, Run.tokens_cons, Run.tokens_group] at hcode
      have hinner : ∀ u ∈ Run.tokens inner, Stands u [] := fun u hu => (hcode u (by simp [hu])).1
      rw [Run.tokens_cons, Run.tokens_group]
      by_cases hnone : Shape.captures inner = []
      · rw [hnone, uses, List.isEmpty_nil, if_pos rfl, String.empty_append, String.empty_append]
        have hweight : 0 < Text.weight
            (texts (t.toToken :: opening.toToken :: (Run.tokens inner ++ [close.toToken]))) := by
          have := huse.weight_pos (by rw [kind_of_isKeywordIn ht]; decide)
          rw [texts_cons, Text.weight_append]
          omega
        exact skip_weighty hweight (hrest _)
      · rw [uses_of_ne_nil hnone]
        have hclause := append (captures hbalanced hinner hclose
          (starts_of_isSymbol hopening (by decide))) (hrest _)
        have hword (next : Option Token) := @keyword q previous next t.toToken "use" " use " ht huse
          (by decide) fun h => absurd h (hkeywords _ (by decide))
        have hall := cons (hword _) (cons (symbol hopening (j := "(") (by decide)) hclause)
        simpa [String.append_assoc] using hall
  · cases h
    rw [uses, List.isEmpty_nil, if_pos rfl, String.empty_append, String.empty_append]
    exact hrest previous

theorem returnType? {type : Option String}
    (hquiet : ∀ text ∈ type, CallsNothing q text) (h : Shape.returnType? ts = some (type, rest))
    (hrest : ∀ previous, Renders q previous rest.tokens next s s') :
    Renders q previous ts.tokens next (returnType type ++ s) (returnType type ++ s') := by
  unfold Shape.returnType? at h
  split at h
  · rename_i hstart
    cases ts with
    | nil => cases hstart
    | cons colon after =>
      have hcolon : colon.isSymbol ":" = true := by simpa [Run.startsWith] using hstart
      have hafter := List.takeWhile_append_dropWhile (p := (!Shape.endsType ·)) (l := after)
      have hhead := List.head?_dropWhile_not (!Shape.endsType ·) after
      simp only [List.drop_succ_cons, List.drop_zero] at h
      generalize after.takeWhile (!Shape.endsType ·) = written at h hafter
      generalize after.dropWhile (!Shape.endsType ·) = body at h hafter hhead
      cases body with
      | nil => cases h
      | cons first body =>
        cases h
        subst hafter
        have hfirst : Stops (some first.toToken) := by
          have hend : Shape.endsType first = true := by simpa using hhead
          rcases Bool.or_eq_true_iff.1 hend with h | h
          · exact stops_of_isSymbol h (by decide)
          · exact stops_of_isSymbol h (by decide)
        have htype : Renders q (some colon.toToken) (Run.tokens written) (some first.toToken)
            (Run.join written) (Run.join written) := by
          refine kept (by rw [Run.toList_join]) ?_ fun hcovers => ?_
          · rw [Run.toList_join]
            exact ⟨rfl, rfl, rfl⟩
          · have hstarts : Starts (some colon.toToken) := starts_of_isSymbol hcolon (by decide)
            exact (hquiet _ rfl).quiet hcovers hstarts fun _ _ _ => hfirst
        rw [Run.tokens_cons, Run.tokens_append, returnType, String.append_assoc, String.append_assoc]
        exact cons (symbol hcolon (by decide)) (append htype (hrest _))
  · cases h
    rw [returnType, String.empty_append, String.empty_append]
    exact hrest previous

/-- The sign of a closure that returns a reference is left out. -/
theorem reference
    (h : ∀ previous, Renders q previous
      (Run.tokens (if Run.startsWith "&" ts then ts.drop 1 else ts)) next s s') :
    Renders q previous ts.tokens next s s' := by
  split at h
  · rename_i hstart
    cases ts with
    | nil => cases hstart
    | cons sign ts =>
      have hsign : sign.isSymbol "&" = true := by simpa [Run.startsWith] using hstart
      have hweight : 0 < Text.weight (texts [sign.toToken]) := by
        rw [eq_of_isSymbol hsign]
        decide
      exact skip_weighty hweight (h _)
  · exact h previous

/-- The parameters of a closure in their parentheses. -/
theorem parameters {inner : Run} {opening close : Placed}
    (hcode : Run.IsCode (opening :: (inner ++ close :: rest))) (hopening : opening.isSymbol "(" = true)
    (hclose : close.isClose = true) (hbalanced : balanced 0 inner.tokens = true)
    (hquiet : ∀ p ∈ Param.listOfRun inner, CallsNothing q p.declaration)
    (hrest : ∀ previous, Renders q previous rest.tokens next s s') :
    Renders q previous (Run.tokens (opening :: (inner ++ close :: rest))) next
      ("(" ++ ((Param.list (Param.listOfRun inner) ++ ")") ++ s))
      ("(" ++ ((Param.list (Param.listOfRun inner) ++ ")") ++ s')) := by
  rw [Run.IsCode, Run.tokens_group] at hcode
  rw [Run.tokens_group]
  have hinner : ∀ t ∈ inner.tokens, Stands t [] ∧ t.isDoc = false := fun t ht =>
    hcode t (by simp [ht])
  have hparams := @params q (some opening.toToken) (rest.tokens.head?.or next) close.toToken inner
    hbalanced (fun t ht => (hinner t ht).1) (fun t ht => (hinner t ht).2) hquiet hclose
    (starts_of_isSymbol hopening (by decide))
  exact cons (symbol hopening (by decide)) (append hparams (hrest _))

/-- What a closure declares, up to its body. -/
theorem declares {isArrow : Bool} {head : ClosureHead} (hkeywords : q.SparesKeywords)
    (hcode : ts.IsCode) (hcalls : head.CallsNothing q) (h : Shape.Declares ts isArrow head rest)
    (hrest : ∀ previous, Renders q previous rest.tokens next s s') :
    Renders q previous ts.tokens next
      ((if head.isStatic then "static " else "") ++ ((if isArrow then "fn " else "function ") ++
        ("(" ++ ((Param.list head.params ++ ")") ++
          (uses head.uses ++ (returnType head.returnType ++ s))))))
      ((if head.isStatic then "static " else "") ++ ((if isArrow then "fn " else "function ") ++
        ("(" ++ ((Param.list head.params ++ ")") ++
          (uses head.uses ++ (returnType head.returnType ++ s')))))) := by
  obtain @⟨isStatic, start, inner, afterParams, afterUses, _, captured, type, hstart, hparens, huses,
    htype⟩ := h
  obtain ⟨hparams, htypes⟩ := hcalls
  -- everything up to the body is in front of the runs that are left
  obtain ⟨opening, close, hgroup, hopening, hclose, hbalanced⟩ := Run.exists_of_parens? hparens
  have hsign : (opening :: (inner ++ close :: afterParams)).Sublist start := by
    rw [← hgroup]
    split
    · exact List.drop_sublist 1 start
    · exact List.Sublist.refl start
  have hcode₀ := (hcode.of_sublist (Shape.sublist_of_closureStart? hstart)).of_sublist hsign
  have hcode₁ := hcode₀.of_sublist
    (((List.sublist_cons_self _ _).trans (List.sublist_append_right inner _)).trans
      (List.sublist_cons_self _ _))
  have hparams (previous : Option Token) := @parameters q previous next afterParams _ _ inner opening
    close hcode₀ hopening hclose hbalanced hparams fun _ =>
      uses? hkeywords hcode₁ huses fun _ => returnType? htypes htype hrest
  rw [← hgroup] at hparams
  exact closureStart? hkeywords hcode hstart fun _ => reference hparams

theorem arrow {head : ClosureHead} (ih : RendersBelow q source ts.length)
    (hkeywords : q.SparesKeywords) (hcode : ts.IsCode)
    (hheads : ∀ h ∈ head :: (readExpr source (rest.drop 1)).closures, h.CallsNothing q)
    (hstops : Stops next) (h : Shape.Declares ts true head rest) (hstart : rest.startsWith "=>" = true) :
    RendersExpr q previous ts next (.closure head (.arrow (readExpr source (rest.drop 1)))) := by
  obtain ⟨hcalls, hheads⟩ := List.forall_mem_cons.1 hheads
  have hnone : head.uses = [] := h.uses_eq_nil
  rw [RendersExpr, Expr.print_closure none fun _ => hnone, Expr.print_closure (some q) fun _ => hnone]
  refine declares hkeywords hcode hcalls h fun previous => ?_
  have hlength := h.length_lt
  have hcode := hcode.of_sublist h.readFrom.2
  cases rest with
  | nil => cases hstart
  | cons sign value =>
    have hsign : sign.isSymbol "=>" = true := by simpa [Run.startsWith] using hstart
    have hvalue := ih value (Nat.lt_trans (Nat.lt_succ_self _) hlength)
      (hcode.of_sublist (List.sublist_cons_self _ _)) hheads (some sign.toToken) next
      (starts_of_isSymbol hsign (by decide)) hstops
    exact cons (symbol hsign (by decide)) hvalue

/-- The statements of a body in their braces. -/
theorem braces {n : Nat} {block : Run} (ih : RendersBelow q source n) (hn : ts.length ≤ n)
    (hkeywords : q.SparesKeywords) (hcode : ts.IsCode)
    (hheads : ∀ head ∈ closuresOfStatements (readStatements source block), head.CallsNothing q)
    (hstart : ts.startsWith "\x7b" = true) (hgroup : ts.group? = some (block, [])) :
    Renders q previous ts.tokens next ((ClosureBody.block (readStatements source block)).text none)
      ((ClosureBody.block (readStatements source block)).text (some q)) := by
  have hlength := Run.length_of_group? hgroup
  have hblock := hcode.of_sublist (Run.sublist_of_group? hgroup).1
  obtain ⟨opening, close, rfl, -, hclose, -⟩ := Run.group?_eq_some_iff.1 hgroup
  have hopening : opening.isSymbol "\x7b" = true := by simpa [Run.startsWith] using hstart
  have hends : EndsStatement (some close.toToken) := by
    refine ⟨stops_of_isClose hclose, fun h => ?_⟩
    rw [Option.some.inj h] at hclose
    exact absurd hclose (by decide)
  have hstatements := @statements q source (some opening.toToken) (some close.toToken) n block
    ih (by omega) hkeywords hblock hheads (starts_of_isSymbol hopening (by decide)) hends
  rw [Run.tokens_cons, Run.tokens_append]
  cases hss : readStatements source block with
  | nil =>
    rw [hss] at hstatements
    exact cons (symbol hopening (j := " \x7b") (by decide))
      (concat hstatements (closing hclose (j := "\x7d") (by decide)))
  | cons first ss =>
    rw [hss] at hstatements
    rw [ClosureBody.text_block_cons, ClosureBody.text_block_cons]
    exact cons (symbol hopening (by decide))
      (concat hstatements.space (closing hclose (by decide)).space)

theorem block {head : ClosureHead} {inner : Run} (ih : RendersBelow q source ts.length)
    (hkeywords : q.SparesKeywords) (hcode : ts.IsCode)
    (hheads : ∀ h ∈ head :: closuresOfStatements (readStatements source inner), h.CallsNothing q)
    (h : Shape.Declares ts false head rest) (hstart : rest.startsWith "\x7b" = true)
    (hgroup : rest.group? = some (inner, [])) :
    RendersExpr q previous ts next (.closure head (.block (readStatements source inner))) := by
  obtain ⟨hcalls, hheads⟩ := List.forall_mem_cons.1 hheads
  have hnone : (ClosureBody.block (readStatements source inner)).isArrow = true → head.uses = [] := by
    rintro ⟨⟩
  rw [RendersExpr, Expr.print_closure none hnone, Expr.print_closure (some q) hnone]
  exact declares hkeywords hcode hcalls h fun _ =>
    braces ih h.length_lt.le hkeywords (hcode.of_sublist h.readFrom.2) hheads hstart hgroup

end Print.Renders

end CurryGen

import CurryGen.Proofs.Tree.RenderedClosure

/-!
# Qualified statements

Whether a part of a statement has structure or is only a run of tokens, the library functions that are
called in it are qualified alike. The printer decides for each call in an expression with structure,
and for each name in a run of tokens; this module says that both come to the same.

* `Print.rendersBelow`: the two texts of an expression render its run, by induction on its length.
* `Stmt.print_qualified`: the qualified text of a statement is the plain one with the class name
  before the calls in it.
* `Stmt.print_unqualified_type`: what a closure declares has to be left out.
-/

namespace CurryGen

open Scan Token

variable {q : Qualifier} {source : List Char}

/-- The expression of a form renders the run of the form. -/
theorem Print.Renders.shape {ts : Run} {shape : Shape} {previous next : Option Token}
    (ih : Print.RendersBelow q source ts.length) (hkeywords : q.SparesKeywords) (hcode : ts.IsCode)
    (hheads : ∀ head ∈ (shape.toExpr source ts).closures, head.CallsNothing q)
    (hstarts : Print.Starts previous) (hstops : Print.Stops next) (h : Shape.Reads ts shape) :
    Print.RendersExpr q previous ts next (shape.toExpr source ts) := by
  cases h with
  | assign hname hsign _ => exact assign ih hcode hname hsign hheads hstops
  | arrow hhead hstart => exact arrow ih hkeywords hcode hheads hstops hhead hstart
  | block hhead hstart hgroup => exact block ih hkeywords hcode hheads hhead hstart hgroup
  | array hgroup => exact array ih hcode hheads hgroup
  | literal hread => exact literal hstops hread
  | new ht hname => exact new hcode ht hname hstops
  | newWith ht hname hargs => exact newWith ih hcode hheads ht hname hargs
  | function hkind hargs => exact function ih hcode hheads hstarts hkind hargs
  | static _ hsign hname hargs =>
    exact member ih hcode hheads (by decide) hsign hname (fun _ => rfl) hargs
  | method hreceiver hsign hname hargs =>
    have htext := ((hcode _ List.mem_cons_self).1.text_of_variableName? hreceiver).2
    refine member ih hcode hheads (by decide) hsign hname (fun _ => ?_) hargs
    rw [Print.callee, ← htext]
  | variableName hname => exact variableName hcode hname
  | raw =>
    rw [Print.RendersExpr, Shape.toExpr, Expr.print, Expr.print]
    exact tokens hstarts (fun _ _ _ => hstops) fun t ht => (hcode t ht).2

/-- What is read from code renders it. -/
theorem Print.rendersBelow (hkeywords : q.SparesKeywords) (source : List Char) (n : Nat) :
    RendersBelow q source n := by
  -- a body is cut into statements before their expressions are read, so the induction is on the
  -- length of the run and not on the tree
  induction n with
  | zero => exact fun us hlt => absurd hlt (Nat.not_lt_zero _)
  | succ n ih =>
    intro us hlt hcode hheads previous next hstarts hstops
    rw [readExpr_eq_toExpr] at hheads ⊢
    exact Renders.shape (fun vs hvs => ih vs (by omega)) hkeywords hcode hheads hstarts hstops
      (Shape.reads_of us)

/-! ## Statements -/

/-- Documentation comments have weight. -/
theorem Token.code_of_weight {ts : List Token} (hts : ∀ t ∈ ts, Stands t [])
    (h : Text.weight (texts ts) ≤ Text.weight (texts (ts.filter (!·.isDoc)))) :
    ts.filter (!·.isDoc) = ts := by
  induction ts with
  | nil => rfl
  | cons t ts ih =>
    obtain ⟨ht, hts⟩ := List.forall_mem_cons.1 hts
    have hle : Text.weight (texts (ts.filter (!·.isDoc))) ≤ Text.weight (texts ts) := by
      rw [texts, texts, List.flatMap_def, List.flatMap_def]
      exact (List.filter_sublist.map _).flatten.countP_le
    cases hdoc : t.isDoc with
    | true =>
      have hkind : t.kind = .doc := eq_of_beq hdoc
      have hpos := ht.weight_pos (by rw [hkind]; decide)
      simp only [hdoc, Bool.not_true, Bool.false_eq_true, not_false_eq_true, List.filter_cons_of_neg,
        texts_cons, Text.weight_append] at h
      omega
    | false =>
      simp only [hdoc, Bool.not_false, List.filter_cons_of_pos, texts_cons, Text.weight_append] at h ⊢
      rw [ih hts (by omega)]

/-- Where the lines of a statement come from does not matter. -/
theorem Stmt.print_congr {s t : Stmt} (hform : s.form = t.form) (htokens : s.tokens = t.tokens) :
    (∀ o, s.print o = t.print o) ∧ s.closures = t.closures := by
  obtain ⟨form, tokens, lines⟩ := s
  obtain ⟨form', tokens', lines'⟩ := t
  obtain rfl : form = form' := hform
  obtain rfl : tokens = tokens' := htokens
  cases form with
  | ret value => cases value <;> simp [Stmt.print, Stmt.closures]
  | expr value => simp [Stmt.print, Stmt.closures]
  | block => simp [Stmt.print, Stmt.closures]

/-- The plain text of a statement is read as a statement of the same tokens. -/
structure Stmt.IsReadBack (s : Stmt) (run : Run) : Prop where
  scan : scan (s.print none).toList = .ok run
  statements : (readStatements (s.print none).toList run).map (·.tokens.tokens) = [s.tokens.tokens]

/-- **A statement is qualified alike, however much of it has structure.** The text with a qualifier
is the plain text with the class name before the calls of library functions, as long as the plain text
is read as the statement again and none of these functions is called in what a closure declares. -/
theorem Stmt.print_qualified {ts run : Run} {s : Stmt} (hkeywords : q.SparesKeywords)
    (hread : s = readStatement source ts) (hback : s.IsReadBack run)
    (hheads : ∀ head ∈ s.closures, head.CallsNothing q) :
    (s.print (some q)).toList =
      Text.insertAt (run.libraryCalls q none) (q.className ++ "::").toList 0
        (s.print none).toList := by
  have hscans := scans_iff.2 ⟨run, hback.scan, rfl⟩
  have hcode : ts.code.tokens = run.tokens.filter (!·.isDoc) := by
    have hflat := Statement.flatMap_tokens_readStatements (s.print none).toList run
    rwa [List.flatMap_def, hback.statements, List.flatten_singleton, hread, tokens_readStatement,
      Run.tokens_code run] at hflat
  have hisCode : ts.code.IsCode := by
    intro t ht
    rw [hcode, List.mem_filter] at ht
    exact ⟨hscans.stands t ht.1, by simpa using ht.2⟩
  have hrenders : Print.Renders q none ts.code.tokens none (s.print none) (s.print (some q)) := by
    have hstarts : Print.Starts none := rfl
    have hends : Print.EndsStatement none := ⟨rfl, by simp⟩
    obtain ⟨hprint, hclosures⟩ := Stmt.print_congr (form_readStatement_code source ts)
      (tokens_readStatement_code source ts)
    rw [hread, ← hclosures] at hheads
    rw [hread, ← hprint, ← hprint]
    exact .statement (Print.rendersBelow hkeywords source _) (Nat.le_refl _) hkeywords hisCode hheads
      hstarts (.inr hends)
  -- a documentation comment in the plain text would have weight
  have hweight := hscans.weight_le.trans hrenders.within.weight_le
  rw [hcode] at hrenders hweight
  rw [code_of_weight hscans.stands hweight] at hrenders
  exact hrenders.insertAt hback.scan

/-- The calls in an argument and in an arrow function that has no structure are qualified alike. -/
theorem Stmt.print_qualified_nested :
    ∃ (run : Run) (s : Stmt), s.print none = "return f(fn ($x) => 1 + f($x));" ∧ s.IsReadBack run ∧
      (s.print (some ⟨"P", ["f"]⟩)).toList =
        Text.insertAt (run.libraryCalls ⟨"P", ["f"]⟩ none) "P::".toList 0 (s.print none).toList := by
  let text := "return f(fn ($x) => 1 + f($x));"
  let body : Run := [⟨⟨.int, "1"⟩, 20⟩, ⟨.symbol "+", 22⟩, ⟨⟨.name, "f"⟩, 24⟩, ⟨.symbol "(", 25⟩,
    ⟨⟨.variable, "$x"⟩, 26⟩, ⟨.symbol ")", 28⟩]
  let arrow : Run := [⟨⟨.name, "fn"⟩, 9⟩, ⟨.symbol "(", 12⟩, ⟨⟨.variable, "$x"⟩, 13⟩,
    ⟨.symbol ")", 15⟩, ⟨.symbol "=>", 17⟩] ++ body
  let value : Run := [⟨⟨.name, "f"⟩, 7⟩, ⟨.symbol "(", 8⟩] ++ arrow ++ [⟨.symbol ")", 29⟩]
  let run : Run := ⟨⟨.name, "return"⟩, 0⟩ :: value ++ [⟨.symbol ";", 30⟩]
  let head : ClosureHead := ⟨false, [{ name := "x" }], [], none⟩
  have hscan : scan text.toList = .ok run := by cbv
  have hclassify : Statement.classify run.code = .ret (some value) := by cbv
  have hcall : Shape.of value = .call (.function "f") [arrow] := by cbv
  have harrow : Shape.of arrow = .arrow head body := by cbv
  have hraw : Shape.of body = .raw := by cbv
  have hsplit : Statement.split run = [run] := by decide +kernel
  obtain ⟨lines, hs⟩ : ∃ lines, readStatement text.toList run =
      .mk (.ret (some (.call (.function "f") [.closure head (.arrow (.raw body.tokens))]))) run
        lines := by
    rw [readStatement_eq, hclassify]
    simp only [readExpr_eq, hcall, harrow, hraw, Option.map_some, List.map_cons, List.map_nil]
    exact ⟨_, rfl⟩
  have hplain : (readStatement text.toList run).print none = text := by
    rw [hs]
    cbv
  have hback : (readStatement text.toList run).IsReadBack run := by
    refine ⟨by rw [hplain, hscan], ?_⟩
    rw [hplain, readStatements_eq_map, hsplit]
    rfl
  refine ⟨run, _, hplain, hback, Stmt.print_qualified (by decide) rfl hback ?_⟩
  have hvariable : scan "$x".toList = .ok [⟨⟨.variable, "$x"⟩, 0⟩] := by cbv
  rw [hs]
  refine List.forall_mem_singleton.2 ⟨List.forall_mem_singleton.2 fun us hus => ?_, by simp⟩
  have hus : scan "$x".toList = .ok us := hus
  rw [hvariable] at hus
  cases hus
  rfl

/-- What a closure declares is a text that is never qualified, though it may hold a call: here it is
the type that a function returns. -/
theorem Stmt.print_unqualified_type :
    ∃ (q : Qualifier) (run : Run) (s : Stmt), q.SparesKeywords ∧
      scan (s.print none).toList = .ok run ∧ readStatements (s.print none).toList run = [s] ∧
      (∀ head ∈ s.closures, ∀ p ∈ head.params, p.default = none) ∧
      (s.print (some q)).toList ≠
        Text.insertAt (run.libraryCalls q none) (q.className ++ "::").toList 0
          (s.print none).toList := by
  let text := "return fn (): f() => 1;"
  let value : Run := [⟨⟨.int, "1"⟩, 21⟩]
  let arrow : Run := [⟨⟨.name, "fn"⟩, 7⟩, ⟨.symbol "(", 10⟩, ⟨.symbol ")", 11⟩, ⟨.symbol ":", 12⟩,
    ⟨⟨.name, "f"⟩, 14⟩, ⟨.symbol "(", 15⟩, ⟨.symbol ")", 16⟩, ⟨.symbol "=>", 18⟩] ++ value
  let run : Run := ⟨⟨.name, "return"⟩, 0⟩ :: arrow ++ [⟨.symbol ";", 22⟩]
  let head : ClosureHead := ⟨false, [], [], some "f()"⟩
  have hscan : scan text.toList = .ok run := by cbv
  have hclassify : Statement.classify run.code = .ret (some arrow) := by cbv
  have harrow : Shape.of arrow = .arrow head value := by cbv
  have hvalue : Shape.of value = .literal (.int 1) "1" := by cbv
  have hsplit : Statement.split run = [run] := by decide +kernel
  obtain ⟨lines, hs⟩ : ∃ lines, readStatement text.toList run =
      .mk (.ret (some (.closure head (.arrow (.literal (.int 1) "1"))))) run lines := by
    rw [readStatement_eq, hclassify]
    simp only [readExpr_eq, harrow, hvalue, Option.map_some]
    exact ⟨_, rfl⟩
  have hprint : (readStatement text.toList run).print none = text ∧
      (readStatement text.toList run).print (some ⟨"P", ["f"]⟩) = text := by
    rw [hs]
    constructor <;> cbv
  refine ⟨⟨"P", ["f"]⟩, run, readStatement text.toList run, by decide, ?_, ?_, ?_, ?_⟩
  · rw [hprint.1, hscan]
  · rw [hprint.1, readStatements_eq_map, hsplit]
    rfl
  · rw [hs]
    refine List.forall_mem_singleton.2 (List.forall_mem_nil _)
  · rw [hprint.1, hprint.2]
    decide +kernel

end CurryGen

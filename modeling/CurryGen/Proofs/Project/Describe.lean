import CurryGen.Proofs.Artifact.MethodName
import CurryGen.Proofs.Delegation
import CurryGen.Proofs.Project.Generate
import CurryGen.Proofs.Tree.Source
import CurryGen.Proofs.Value.Variable

/-!
# Listing what can be generated

`Config.describe` and `Config.render` read the same template, but they do not follow the delegation
of the same functions: the generated tests leave out a function that returns an object, and the list
does not.

* `exists_mapM_iff`: steps succeed one after another iff each of them does.
* `exists_summary_iff`, `exists_callShape_iff`, `exists_method?_iff`: what a function must have for
  its summary, its call and its test.
* `template_readSources`, `exists_callShape_of_artifacts`: what a success of rendering says.
* `describe_iff`: what is rendered can be listed iff delegation can be followed from the variadic
  functions that return an object.
-/

namespace CurryGen

/-! ## Steps that may fail -/

theorem exists_mapM_iff {α β ε : Type} {g : α → Except ε β} {l : List α} :
    (∃ r, l.mapM g = .ok r) ↔ ∀ a ∈ l, ∃ b, g a = .ok b := by
  induction l with
  | nil => exact iff_of_true ⟨[], rfl⟩ (List.forall_mem_nil _)
  | cons a l ih =>
    rw [List.forall_mem_cons, ← ih]
    constructor
    · rintro ⟨r, h⟩
      obtain ⟨b, bs, hb, hbs, -⟩ := Declaration.mapM_cons_eq_ok_iff.1 h
      exact ⟨⟨b, hb⟩, bs, hbs⟩
    · rintro ⟨⟨b, hb⟩, bs, hbs⟩
      exact ⟨b :: bs, Declaration.mapM_cons_eq_ok_iff.2 ⟨b, bs, hb, hbs, rfl⟩⟩

theorem exists_ite_map_iff {α β ε : Type} {b : Bool} {x : Except ε α} {g : α → β} {y : β} :
    (∃ r, (if b then x.map g else .ok y) = .ok r) ↔ (b = true → ∃ a, x = .ok a) := by
  cases b with
  | false => exact iff_of_true ⟨y, rfl⟩ fun h => by cases h
  | true =>
    constructor
    · rintro ⟨r, hr⟩ -
      obtain ⟨a, ha, -⟩ := Declaration.exists_of_map hr
      exact ⟨a, ha⟩
    · intro h
      obtain ⟨a, rfl⟩ := h rfl
      exact ⟨g a, rfl⟩

/-! ## What a function must have -/

section

variable {c : Config} {t : Template} {f : TemplateFunction} {providers : Option ClassDecl}

theorem exists_summary_iff :
    (∃ s, Config.summary t f = .ok s) ↔
      (f.needsInnerParams = true → ∃ ps, t.innerParams f.name = .ok ps) :=
  exists_ite_map_iff

theorem exists_callShape_iff :
    (∃ shape, t.callShape f = .ok shape) ↔
      (f.needsInnerParams = true → ∃ ps, t.innerParams f.name = .ok ps) :=
  exists_ite_map_iff

theorem exists_callShape_of_method? {m : Option Code.Method}
    (h : BasicTest.method? c t providers f = .ok m) (hobject : f.returnsObject = false) :
    ∃ shape, t.callShape f = .ok shape := by
  rw [BasicTest.method?, hobject] at h
  obtain ⟨shape, hshape, -⟩ := Declaration.exists_of_map h
  exact ⟨shape, hshape⟩

/-- A function that returns an object returns no callable. -/
theorem TemplateFunction.needsInnerParams_of_returnsObject (h : f.returnsObject = true) :
    f.needsInnerParams = f.isVariadic := by
  have hcallable : f.returnsCallable = false := by
    rw [returnsObject, beq_iff_eq] at h
    rw [returnsCallable, h]
    decide
  rw [needsInnerParams, hcallable, Bool.false_or]

end

namespace Config

variable {c : Config} {t t' : FileTree}

/-! ## What rendering has read -/

theorem template_readSources {s : Sources} (h : runOn c.readSources t = (.ok s, t')) :
    runOn (readSource c.template.path) t = (.ok s.template, t) := by
  obtain ⟨template, t₁, htemplate, hrest⟩ := runOn_bind_eq_ok h
  obtain ⟨examples, t₂, -, hrest⟩ := runOn_bind_eq_ok hrest
  have hunchanged := (reads_readSource c.template.path).unchanged t
  rw [htemplate] at hunchanged
  obtain rfl : t₁ = t := hunchanged
  dsimp only at hrest
  split at hrest
  all_goals
    obtain ⟨providers, t₃, -, hrest⟩ := runOn_bind_eq_ok hrest
    obtain rfl : _ = s := Except.ok.inj (Prod.ext_iff.mp hrest).1
    exact htemplate

/-- Where the artifacts are made, every function that does not return an object can be called. -/
theorem exists_callShape_of_artifacts {s : Sources} {as : List Artifact}
    (h : c.artifacts s = .ok as) :
    ∃ template, c.findTemplate s.template = .ok template ∧
      ∀ f ∈ template.functions, f.returnsObject = false →
        ∃ shape, template.callShape f = .ok shape := by
  obtain ⟨template, htemplate, h⟩ := Declaration.exists_of_bind h
  obtain ⟨examples, -, h⟩ := Declaration.exists_of_bind h
  obtain ⟨providers, -, h⟩ := Declaration.exists_of_bind h
  obtain ⟨api, -, h⟩ := Declaration.exists_of_bind h
  obtain ⟨basic, hbasic, -⟩ := Declaration.exists_of_bind h
  obtain ⟨methods, hmethods, -⟩ := Declaration.exists_of_bind hbasic
  refine ⟨template, htemplate, fun f hf hobject => ?_⟩
  obtain ⟨m, hm⟩ := exists_mapM_iff.1 ⟨methods, hmethods⟩ f hf
  exact exists_callShape_of_method? hm hobject

theorem class?_of_find {r : ClassRef} {file : SourceFile} {decl : ClassDecl}
    (h : r.find file = .ok decl) : file.class? r.className = some decl := by
  unfold ClassRef.find at h
  split at h
  · cases h
    assumption
  · cases h

/-! ## Listing -/

theorem map_function_summaries {template : Template} {summaries : List FunctionSummary}
    (h : template.functions.mapM (summary template) = .ok summaries) :
    summaries.map (·.function) = template.functions := by
  have hfunctions := flatMap_of_mapM (g := fun s : FunctionSummary => [s.function])
    (k := fun f => [f]) (fun f s hs => ?_) h
  · rwa [← List.map_eq_flatMap, List.flatMap_singleton'] at hfunctions
  · unfold summary at hs
    split at hs
    · obtain ⟨ps, -, rfl⟩ := Declaration.exists_of_map hs
      rfl
    · cases hs
      rfl

/-- Listing succeeds iff every function that needs its inner parameters has some. -/
theorem exists_summaries_iff {template : Template} :
    (∃ summaries, template.functions.mapM (summary template) = .ok summaries) ↔
      ∀ f ∈ template.functions, f.needsInnerParams = true →
        ∃ ps, template.innerParams f.name = .ok ps := by
  rw [exists_mapM_iff]
  simp only [exists_summary_iff]

/-- **What is rendered can be listed** exactly when the delegation of every variadic function that
returns an object can be followed to its end. A list has one summary for each static method of the
template class, in its order. -/
theorem describe_iff {as : List Artifact} (h : runOn c.render t = (.ok as, t')) :
    ∃ file decl template, runOn (readSource c.template.path) t = (.ok file, t) ∧
      file.class? c.template.className = some decl ∧
      Template.ofClass decl c.api.combinators = .ok template ∧
      ((∃ summaries, runOn c.describe t = (.ok summaries, t)) ↔
        ∀ f ∈ template.functions, f.returnsObject = true → f.isVariadic = true →
          ∃ ps, Template.Resolves template [] f.name (.ok ps)) ∧
      ∀ summaries, runOn c.describe t = (.ok summaries, t) →
        summaries.map (·.function.definition) = decl.methods.filter (·.isStatic) := by
  obtain ⟨sources, t₁, hsources, hartifacts⟩ := runOn_bind_eq_ok h
  have hread := template_readSources hsources
  obtain ⟨template, hfind, hcall⟩ := exists_callShape_of_artifacts (Prod.ext_iff.mp hartifacts).1
  obtain ⟨decl, hclass, htemplate⟩ := Declaration.exists_of_bind hfind
  have hdescribe : runOn c.describe t = (template.functions.mapM (summary template), t) := by
    rw [describe, runOn_bind, hread]
    change (c.summaries sources.template, t) = _
    rw [summaries, hfind]
    rfl
  refine ⟨sources.template, decl, template, hread, class?_of_find hclass, htemplate, ⟨?_, ?_⟩, ?_⟩
  · rintro ⟨summaries, hok⟩ f hf hobject hvariadic
    rw [hdescribe] at hok
    obtain ⟨ps, hps⟩ := exists_summaries_iff.1 ⟨summaries, (Prod.ext_iff.mp hok).1⟩ f hf
      ((TemplateFunction.needsInnerParams_of_returnsObject hobject).trans hvariadic)
    exact ⟨ps, Template.resolves_iff.2 hps⟩
  · intro hresolves
    have hall : ∀ f ∈ template.functions, f.needsInnerParams = true →
        ∃ ps, template.innerParams f.name = .ok ps := by
      intro f hf hneeds
      -- A generated test has followed the delegation of every function that returns no object.
      cases hobject : f.returnsObject with
      | false => exact exists_callShape_iff.1 (hcall f hf hobject) hneeds
      | true =>
        rw [TemplateFunction.needsInnerParams_of_returnsObject hobject] at hneeds
        obtain ⟨ps, hps⟩ := hresolves f hf hobject hneeds
        exact ⟨ps, Template.resolves_iff.1 hps⟩
    obtain ⟨summaries, hok⟩ := exists_summaries_iff.2 hall
    exact ⟨summaries, by rw [hdescribe, hok]⟩
  · intro summaries hlist
    rw [hdescribe] at hlist
    calc summaries.map (·.function.definition)
        = (summaries.map (·.function)).map (·.definition) := List.map_map.symm
      _ = ((decl.methods.filter (·.isStatic)).map TemplateFunction.mk).map (·.definition) := by
        rw [map_function_summaries (Prod.ext_iff.mp hlist).1, Template.functions_ofClass htemplate]
      _ = decl.methods.filter (·.isStatic) := by
        rw [List.map_map]
        exact List.map_id _

/-- A project with a template and no examples. -/
def wrapperProject : Config where
  template := ⟨⟨"T.php"⟩, "T"⟩
  examples := ⟨⟨"E.php"⟩, "E"⟩

/-- A template with a variadic function that returns an object in each of two branches. -/
def wrapperText : String :=
  "<?php class T \x7b /** @return object */ static function f(...$x) " ++
    "\x7b if ($x) \x7b return new A; \x7d else \x7b return new B; \x7d \x7d \x7d"

/-- The only statement of the function. -/
def wrapperBranches : Run :=
  [⟨⟨.name, "if"⟩, 65⟩, ⟨.symbol "(", 68⟩, ⟨⟨.variable, "$x"⟩, 69⟩, ⟨.symbol ")", 71⟩,
    ⟨.symbol "\x7b", 73⟩, ⟨⟨.name, "return"⟩, 75⟩, ⟨⟨.name, "new"⟩, 82⟩, ⟨⟨.name, "A"⟩, 86⟩,
    ⟨.symbol ";", 87⟩, ⟨.symbol "\x7d", 89⟩, ⟨⟨.name, "else"⟩, 91⟩, ⟨.symbol "\x7b", 96⟩,
    ⟨⟨.name, "return"⟩, 98⟩, ⟨⟨.name, "new"⟩, 105⟩, ⟨⟨.name, "B"⟩, 109⟩, ⟨.symbol ";", 110⟩,
    ⟨.symbol "\x7d", 112⟩]

/-- The function, as it is read. -/
def wrapperFunction : MethodDecl where
  doc := some "/** @return object */"
  modifiers := ["static"]
  name := "f"
  params := [{ name := "x", variadic := true }]
  body := some [readStatement wrapperText.toList wrapperBranches]

def wrapperTree : FileTree where
  entries :=
    [(["home"], .directory), (["home", "T.php"], .file wrapperText),
      (["home", "E.php"], .file "<?php class E \x7b \x7d")]
  home := ["home"]

set_option maxRecDepth 4096 in
theorem read_wrapperText :
    SourceFile.read ⟨"T.php"⟩ wrapperText =
      .ok { classes := [{ name := "T", methods := [wrapperFunction] }] } := by
  let rest : Run :=
    [⟨⟨.name, "T"⟩, 12⟩, ⟨.symbol "\x7b", 14⟩, ⟨⟨.doc, "/** @return object */"⟩, 16⟩,
      ⟨⟨.name, "static"⟩, 38⟩, ⟨⟨.name, "function"⟩, 45⟩, ⟨⟨.name, "f"⟩, 54⟩, ⟨.symbol "(", 55⟩,
      ⟨.symbol "...", 56⟩, ⟨⟨.variable, "$x"⟩, 59⟩, ⟨.symbol ")", 61⟩, ⟨.symbol "\x7b", 63⟩] ++
    wrapperBranches ++ [⟨.symbol "\x7d", 114⟩, ⟨.symbol "\x7d", 116⟩]
  have hscan : scan wrapperText.toList = .ok (⟨⟨.name, "class"⟩, 6⟩ :: rest) := by cbv
  have hstatements : readStatements wrapperText.toList wrapperBranches =
      [readStatement wrapperText.toList wrapperBranches] := by
    have hsplit : Statement.split wrapperBranches = [wrapperBranches] := by decide +kernel
    rw [readStatements_eq_map, hsplit, List.map_singleton]
  have hclass (ctx : Declaration.Context) :
      Declaration.readClass ctx .regular ⟨⟨.name, "class"⟩, 6⟩ rest = .ok
        ({ name := "T", methods :=
          [{ wrapperFunction with body := some (readStatements ctx.source wrapperBranches) }] },
          []) := by
    cbv
  rw [wrapperFunction, ← hstatements]
  exact SourceFile.read_class hscan rfl fun last => hclass ⟨wrapperText.toList, last⟩

/-- Rendering succeeds, and listing does not: the body has no `return` outside its branches. -/
theorem describe_iff_wrapper :
    ∃ as t', runOn wrapperProject.render wrapperTree = (.ok as, t') ∧
      ¬ ∃ summaries, runOn wrapperProject.describe wrapperTree = (.ok summaries, wrapperTree) := by
  have hok : (runOn wrapperProject.render wrapperTree).1.toOption.isSome = true := by
    decide +kernel
  have hsource : runOn (readSource wrapperProject.template.path) wrapperTree =
      (.ok { classes := [{ name := "T", methods := [wrapperFunction] }] }, wrapperTree) := by
    rw [← read_wrapperText]
    rfl
  have hbranches : (readStatement wrapperText.toList wrapperBranches).form = .block := by
    have hclassify : Statement.classify wrapperBranches.code = .block := by cbv
    rw [form_readStatement, hclassify]
  obtain ⟨as, has⟩ := Declaration.exists_of_toOption_isSome hok
  refine ⟨as, _, Prod.ext has rfl, ?_⟩
  obtain ⟨file, decl, template, hread, hclass, htemplate, hiff, -⟩ :=
    describe_iff (Prod.ext has rfl)
  obtain rfl := Except.ok.inj (Prod.ext_iff.mp (hsource.symm.trans hread)).1
  obtain rfl : _ = decl := Option.some.inj hclass
  have hf : TemplateFunction.mk wrapperFunction ∈ template.functions := by
    rw [Template.functions_ofClass htemplate]
    exact List.mem_singleton.2 rfl
  rw [hiff]
  intro hall
  obtain ⟨ps, hps⟩ := hall _ hf (by decide +kernel) rfl
  have hnone (e : Expr) : ¬ Template.Returns ⟨wrapperFunction⟩ e := by
    have hstatements : (TemplateFunction.mk wrapperFunction).statements =
        [readStatement wrapperText.toList wrapperBranches] := rfl
    intro he
    obtain ⟨s, hs, hform⟩ := he.exists_mem
    rw [hstatements] at hs
    obtain rfl := List.mem_singleton.1 hs
    rw [hbranches] at hform
    cases hform
  have hmissing := Template.resolves_iff.1 (.missing hf List.not_mem_nil hnone)
  rw [Template.resolves_iff.1 hps] at hmissing
  cases hmissing

end Config

end CurryGen

import CurryGen.Artifact.Api
import CurryGen.Proofs.Tree.Param
import CurryGen.Proofs.Tree.Wrapped

/-!
# The body of a library method

The lines of a method of the library are read as the template function's body again, in a closure
with the function's own parameters if the method is curried. Two things are lost on the way, both
with a documentation comment: the end of a statement that only such a comment separates from an
`else`, and the comment in the type of a parameter.

* `Api.Rebuilds`: lines that are read as the body of a function.
* `Api.rebuilds_method_iff`: when the lines of a method are.
-/

namespace CurryGen

open Scan Token Statement Code

/-! ## The block of a method -/

/-- The statements of a method are those of a balanced block in its file. -/
theorem MethodDecl.ReadFrom.exists_block {source : List Char} {run : Run} {m : MethodDecl}
    (h : m.ReadFrom source run) :
    ∃ inner : Run, balanced 0 inner.tokens = true ∧ (∀ r ∈ split inner, r <:+: run ∧ r ≠ []) ∧
      m.statements = (split inner).map (readStatement source) := by
  rw [MethodDecl.statements]
  rcases h.body with hbody | ⟨inner, hinner, hbody⟩
  · exact ⟨[], rfl, fun r hr => absurd hr List.not_mem_nil, by rw [hbody]; rfl⟩
  · refine ⟨inner, hinner.balanced, fun r hr => ?_, ?_⟩
    · obtain ⟨hneighbours, hne⟩ := neighbours_of_mem_split hr
      exact ⟨hneighbours.trans hinner.isInfix, hne⟩
    · rw [hbody, Option.getD_some, readStatements_eq_map]

theorem map_code_tokens_of_outline {ps qs : List Run} (h : ps.map outline = qs.map outline) :
    ps.map (·.code.tokens) = qs.map (·.code.tokens) := by
  have hcode (rs : List Run) :
      rs.map (·.code.tokens) = (rs.map outline).map (·.filter (!·.isDoc)) := by
    rw [List.map_map]
    exact List.map_congr_left fun r _ => tokens_code_eq_outline r
  rw [hcode, hcode, h]

namespace Api

/-! ## The lines around the body -/

/-- The first line of a curried body has the tokens up to the opening brace of the closure. -/
theorem scans_header {curry : String} (hcurry : isIdentifier curry = true) (n : Nat)
    {ps : List Param} {inner : Run} (h : Param.TokensOfList ps inner) :
    Scans ("return static::" ++ curry ++ "(" ++ toString n ++ ", function (" ++ Param.list ps ++
        ") \x7b").toList
      (beforeBody curry n inner.tokens) := by
  have hbrace := scans_symbol (s := "\x7b") (by decide) .nil
  have hclose := scans_symbol (s := ")") (by decide) (.space (c := ' ') rfl hbrace)
  have hlist := h.scans ')' _ _ (by decide) hclose
  have hfunction := Stands.scans_before (t := ⟨.name, "function"⟩) (stands_identifier (by decide))
    (by decide) (d := ' ') (by decide) (.space rfl (scans_symbol (s := "(") (by decide) hlist))
  have hcount := (stands_toString n).scans_before nofun (d := ',') (by decide)
    (scans_symbol (s := ",") (by decide) (.space (c := ' ') rfl hfunction))
  have hname := (stands_identifier hcurry).scans_before nofun (d := '(') (by decide)
    (scans_symbol (s := "(") (by decide) hcount)
  have hstatic := Stands.scans_before (t := ⟨.name, "static"⟩) (stands_identifier (by decide))
    (by decide) (d := ':') (y := ':' :: _) (by decide) (scans_symbol (s := "::") (by decide) hname)
  have hreturn := Stands.scans_before (t := ⟨.name, "return"⟩) (stands_identifier (by decide))
    (by decide) (d := ' ') (by decide) (.space rfl hstatic)
  simpa [beforeBody] using hreturn

theorem scans_footer : Scans "\x7d, func_get_args());".toList afterBody :=
  scans_iff.2 ⟨[⟨.symbol "\x7d", 0⟩, ⟨.symbol ",", 1⟩, ⟨⟨.name, "func_get_args"⟩, 3⟩,
    ⟨.symbol "(", 16⟩, ⟨.symbol ")", 17⟩, ⟨.symbol ")", 18⟩, ⟨.symbol ";", 19⟩], by cbv, rfl⟩

/-- A curried body has the tokens of the call, with the parameters and the body of the function. -/
theorem scans_curriedBody {combinators : Combinators}
    (hcurry : isIdentifier combinators.curry = true) {f : TemplateFunction} {inner : Run}
    (hparams : Param.TokensOfList f.params inner) {us : List Token}
    (hbody : Scans ("\n".intercalate ((templateBody f).map (indented 1))).toList us) :
    Scans ("\n".intercalate (curriedBody combinators f)).toList
      (wrapped combinators.curry f.arity inner.tokens us) := by
  have hheader := scans_header hcurry f.arity hparams
  have hfront := scans_intercalate_append (a := [_]) (by rwa [String.intercalate_singleton]) hbody
  have hall := scans_intercalate_append hfront (b := [_])
    (by rw [String.intercalate_singleton]; exact scans_footer)
  rw [wrapped_eq]
  exact hall

/-! ## Bodies that are read again -/

/-- Whether lines are read as the statements of a function, in a closure with its parameters if the
function is curried. -/
def Rebuilds (curry : String) (f : TemplateFunction) (body : List String) : Prop :=
  ∃ ts, scan ("\n".intercalate body).toList = .ok ts ∧
    if f.isCurried then
      ∃ s count statements, readStatements ("\n".intercalate body).toList ts = [s] ∧
        count.IsCount f.arity ∧
        s.form = .ret (some (.call (.static "static" curry)
          [count, .closure ⟨false, f.params, [], none⟩ (.block statements),
            .call (.function "func_get_args") []])) ∧
        statements.map (·.tokens.tokens) = f.statements.map (·.tokens.tokens)
    else
      (readStatements ("\n".intercalate body).toList ts).map (·.tokens.tokens) =
        f.statements.map (·.tokens.tokens)

/-- The lines of a function are read as its statements. -/
theorem rebuilds_templateBody {curry : String} {f : TemplateFunction} (hf : f.isCurried = false)
    {inner : Run} {us : List Token}
    (hbody : Scans ("\n".intercalate ((templateBody f).map (indented 0))).toList us)
    (hus : us.map Token.erased = outline (split inner).flatten)
    (hstatements : f.statements.map (·.tokens.tokens) = (split inner).map (·.code.tokens)) :
    Rebuilds curry f (templateBody f) := by
  have hlines : (templateBody f).map (indented 0) = templateBody f := by
    have hline (line : String) : indented 0 line = line := by
      unfold indented
      split
      · rename_i hnil
        exact hnil.symm
      · simp
    exact (List.map_congr_left fun line _ => hline line).trans (List.map_id _)
  rw [hlines] at hbody
  obtain ⟨ts, hts, rfl⟩ := scans_iff.1 hbody
  refine ⟨ts, hts, ?_⟩
  have houtline : outline ts = outline (split inner).flatten := by rw [outline_eq, hus]
  have hsplit := map_outline_split houtline
  rw [split_flatten_split] at hsplit
  rw [if_neg (by simp [hf]), map_tokens_readStatements, hstatements]
  exact map_code_tokens_of_outline hsplit

/-- The lines of a curried function are read as its body exactly when its statements stay apart and
its parameters as they are without documentation comments. -/
theorem rebuilds_curriedBody_iff {combinators : Combinators}
    (hcurry : isIdentifier combinators.curry = true) {f : TemplateFunction} (hf : f.isCurried = true)
    {params inner : Run} (hparams : Param.TokensOfList f.params params)
    (hbalanced : balanced 0 inner.tokens = true) {us : List Token}
    (hbody : Scans ("\n".intercalate ((templateBody f).map (indented 1))).toList us)
    (hus : us.map Token.erased = outline (split inner).flatten)
    (hstatements : f.statements.map (·.tokens.tokens) = (split inner).map (·.code.tokens)) :
    Rebuilds combinators.curry f (curriedBody combinators f) ↔
      (∀ p ∈ f.params, p.Undocumented) ∧
        (f.statements.map (·.tokens.tokens)).IsChain fun p q => continues p q = false := by
  have hcode : us.filter (!·.isDoc) = inner.code.tokens := by
    rw [← filter_code_erased, hus, ← tokens_code_eq_outline, code_flatten_split]
  have hblock : balanced 0 us = true := by
    rw [← balanced_filter_code, hcode, Run.tokens_code, balanced_filter_code, hbalanced]
  obtain ⟨ts, hts, htokens⟩ := scans_iff.1 (scans_curriedBody hcurry hparams hbody)
  obtain ⟨params', block, hparams', hblock', s, count, hs, hcount, hform⟩ :=
    @readStatements_wrapped ("\n".intercalate (curriedBody combinators f)).toList _ _ _ _ _
      hparams.balanced hblock htokens
  rw [← Run.tokens_code] at hparams'
  rw [hcode] at hblock'
  have hread : Param.listOfRun params' = f.params ↔ ∀ p ∈ f.params, p.Undocumented := by
    rw [Param.listOfRun_congr hparams', hparams.read_code_iff]
  -- the closure's statements are those of the block without its documentation comments
  have hsplit (source : List Char) :
      (readStatements source block).map (·.tokens.tokens) = (split inner.code).map (·.tokens) := by
    have houtline : outline block = outline inner.code := by
      rw [outline_eq, outline_eq, hblock']
    rw [map_tokens_readStatements, map_code_tokens_of_outline (map_outline_split houtline)]
    exact List.map_congr_left fun p hp => congrArg Run.tokens (code_of_split_code hp)
  rw [← hread, hstatements, ← split_code_iff]
  constructor
  · intro hleft
    obtain ⟨ts', hts', h⟩ := hleft
    rw [hts] at hts'
    cases hts'
    rw [if_pos hf] at h
    obtain ⟨s', count', statements, hs', -, hform', htokens'⟩ := h
    rw [hs] at hs'
    cases hs'
    rw [hform] at hform'
    simp only [StmtForm.ret.injEq, Option.some.injEq, Expr.call.injEq, List.cons.injEq,
      Expr.closure.injEq, ClosureHead.mk.injEq, ClosureBody.block.injEq, true_and,
      and_true] at hform'
    obtain ⟨-, hlist, rfl⟩ := hform'
    rw [hsplit, hstatements] at htokens'
    exact ⟨hlist, htokens'⟩
  · intro hright
    obtain ⟨hlist, hpieces⟩ := hright
    rw [hlist] at hform
    refine ⟨ts, hts, ?_⟩
    rw [if_pos hf]
    exact ⟨s, count, _, hs, hcount, hform, by rw [hsplit, hstatements, hpieces]⟩

/-- **The lines of a library method are read as the body of its function**: always if the method is
not curried, and otherwise exactly when no documentation comment stands in a parameter or separates a
closing brace from the `else` after it. -/
theorem rebuilds_method_iff {path : Path} {text : String} {file : SourceFile}
    (h : SourceFile.read path text = .ok file) {c : ClassDecl} (hc : c ∈ file.classes)
    {m : MethodDecl} (hm : m ∈ c.methods) {config : Config} {x : Examples} {written : Method}
    (hwritten : method config x ⟨m⟩ = .ok written)
    (hcurry : isIdentifier config.api.combinators.curry = true)
    (hstrings : ∀ s ∈ m.statements, ∀ t ∈ s.tokens, t.kind = .string → '\n' ∉ t.text.toList)
    (hparams : ∀ p ∈ m.params, p.ReadsBack) :
    Rebuilds config.api.combinators.curry ⟨m⟩ written.body ↔
      ((TemplateFunction.mk m).isCurried = true → (∀ p ∈ m.params, p.Undocumented) ∧
        (m.statements.map (·.tokens.tokens)).IsChain fun p q => continues p q = false) := by
  obtain ⟨run, hrun, hread⟩ := SourceFile.readFrom_of_read h
  obtain ⟨inner, hbalanced, hneighbours, hblock⟩ := (hread c hc m hm).exists_block
  obtain ⟨params, htokens⟩ := Param.exists_tokensOfList hparams
  have hstrings :
      ∀ r ∈ split inner, ∀ t ∈ Run.tokens r, t.kind = .string → '\n' ∉ t.text.toList := by
    intro r hr t ht hkind
    obtain ⟨p, hp, rfl⟩ := List.mem_map.1 ht
    refine hstrings (readStatement text.toList r) (hblock ▸ List.mem_map_of_mem hr) p ?_ hkind
    rw [tokens_readStatement]
    exact List.mem_filter.2 ⟨hp, by simp [isDoc, hkind]⟩
  have hlines : templateBody ⟨m⟩ = (split inner).flatMap (lines text.toList) := by
    rw [templateBody, TemplateFunction.statements, hblock, List.flatMap_map]
    exact List.flatMap_congr fun r _ => lines_readStatement text.toList r
  have hstatements : m.statements.map (·.tokens.tokens) = (split inner).map (·.code.tokens) := by
    rw [hblock, map_tokens_readStatement]
  obtain ⟨rows, rfl⟩ : ∃ rows, written = methodWith config ⟨m⟩ rows := by
    rw [method] at hwritten
    cases hrows : x.rows ⟨m⟩ with
    | error e =>
      rw [hrows] at hwritten
      cases hwritten
    | ok rows =>
      rw [hrows] at hwritten
      exact ⟨rows, (Except.ok.inj hwritten).symm⟩
  cases hf : (TemplateFunction.mk m).isCurried with
  | true =>
    obtain ⟨us, hus, herased⟩ := exists_scans_lines hrun hneighbours hstrings 1
    rw [← hlines] at hus
    have hbody : (methodWith config ⟨m⟩ rows).body = curriedBody config.api.combinators ⟨m⟩ :=
      if_pos hf
    rw [hbody, rebuilds_curriedBody_iff hcurry hf htokens hbalanced hus herased hstatements]
    exact ⟨fun hkept _ => hkept, fun hkept => hkept rfl⟩
  | false =>
    obtain ⟨us, hus, herased⟩ := exists_scans_lines hrun hneighbours hstrings 0
    rw [← hlines] at hus
    have hbody : (methodWith config ⟨m⟩ rows).body = templateBody ⟨m⟩ := if_neg (by simp [hf])
    rw [hbody]
    exact iff_of_true (rebuilds_templateBody hf hus herased hstatements)
      fun htrue => absurd htrue Bool.false_ne_true

set_option maxRecDepth 4096 in
/-- A file with a documentation comment between a closing brace and an `else`. -/
theorem read_divided :
    let text := "class T \x7b static function f($x) " ++
      "\x7b if ($x) \x7b \x7d /** or */ else \x7b \x7d \x7d \x7d"
    let first : Run := [⟨⟨.name, "if"⟩, 34⟩, ⟨.symbol "(", 37⟩, ⟨⟨.variable, "$x"⟩, 38⟩,
      ⟨.symbol ")", 40⟩, ⟨.symbol "\x7b", 42⟩, ⟨.symbol "\x7d", 44⟩]
    let second : Run := [⟨⟨.doc, "/** or */"⟩, 46⟩, ⟨⟨.name, "else"⟩, 56⟩, ⟨.symbol "\x7b", 61⟩,
      ⟨.symbol "\x7d", 63⟩]
    SourceFile.read ⟨"t.php"⟩ text = .ok
      { classes := [{ name := "T", methods :=
        [{ modifiers := ["static"], name := "f", params := [{ name := "x" }]
           body :=
             some [readStatement text.toList first, readStatement text.toList second] }] }] } := by
  intro text first second
  let keyword : Placed := ⟨⟨.name, "class"⟩, 0⟩
  let rest : Run :=
    [⟨⟨.name, "T"⟩, 6⟩, ⟨.symbol "\x7b", 8⟩, ⟨⟨.name, "static"⟩, 10⟩, ⟨⟨.name, "function"⟩, 17⟩,
      ⟨⟨.name, "f"⟩, 26⟩, ⟨.symbol "(", 27⟩, ⟨⟨.variable, "$x"⟩, 28⟩, ⟨.symbol ")", 30⟩,
      ⟨.symbol "\x7b", 32⟩] ++ (first ++ second) ++ [⟨.symbol "\x7d", 65⟩, ⟨.symbol "\x7d", 67⟩]
  have hscan : scan text.toList = .ok (keyword :: rest) := by cbv
  have hstatements (source : List Char) : readStatements source (first ++ second) =
      [readStatement source first, readStatement source second] := by
    have hsplit : split (first ++ second) = [first, second] := by decide +kernel
    rw [readStatements_eq_map, hsplit, List.map_cons, List.map_singleton]
  have hclass (ctx : Declaration.Context) : Declaration.readClass ctx .regular keyword rest = .ok
      ({ name := "T", methods :=
        [{ modifiers := ["static"], name := "f", params := [{ name := "x" }]
           body := some (readStatements ctx.source (first ++ second)) }] }, []) := by
    cbv
  rw [← hstatements]
  exact SourceFile.read_class hscan rfl fun last => hclass ⟨text.toList, last⟩

/-- The two statements are one in the closure. -/
theorem rebuilds_method_iff_divided :
    let text := "class T \x7b static function f($x) " ++
      "\x7b if ($x) \x7b \x7d /** or */ else \x7b \x7d \x7d \x7d"
    ∃ file c m x written, SourceFile.read ⟨"t.php"⟩ text = .ok file ∧ c ∈ file.classes ∧
      m ∈ c.methods ∧ method {} x ⟨m⟩ = .ok written ∧
      written.body = ["return static::curryN(1, function ($x) \x7b", "    if ($x) \x7b \x7d",
        "    /** or */ else \x7b \x7d", "\x7d, func_get_args());"] ∧
      ¬Rebuilds "curryN" ⟨m⟩ written.body := by
  intro text
  have hmem {α : Type} {a : α} : a ∈ [a] := List.mem_singleton.2 rfl
  have hread := read_divided
  let x : Examples := ⟨⟨[], {}, List.nodup_nil⟩, { name := "Examples" }, none, "P"⟩
  have hmethod (m : MethodDecl) : method {} x ⟨m⟩ = .ok (methodWith {} ⟨m⟩ []) := rfl
  refine ⟨_, _, _, x, _, hread, hmem, hmem, hmethod _, ?_, ?_⟩
  · have hlines (m : MethodDecl) (r r' : Run) (h : m.statements =
        [readStatement text.toList r, readStatement text.toList r']) :
        templateBody ⟨m⟩ = lines text.toList r ++ lines text.toList r' := by
      rw [templateBody, TemplateFunction.statements, h, List.flatMap_cons, List.flatMap_singleton,
        lines_readStatement, lines_readStatement]
    have hcurried (m : MethodDecl) (h : (TemplateFunction.mk m).isCurried = true) :
        (methodWith {} ⟨m⟩ []).body = curriedBody {} ⟨m⟩ := if_pos h
    rw [hcurried _ (by decide +kernel), curriedBody, hlines _ _ _ rfl]
    decide +kernel
  · rw [rebuilds_method_iff hread hmem hmem (hmethod _) (by decide) ?_ ?_]
    · intro hkept
      obtain ⟨-, hchain⟩ := hkept (by decide +kernel)
      simp only [MethodDecl.statements, Option.getD_some, List.map_cons, List.map_nil,
        tokens_readStatement, List.isChain_pair] at hchain
      exact absurd hchain (by decide +kernel)
    · intro s hs
      have hs : s ∈ [_, _] := hs
      rcases List.mem_pair.1 hs with rfl | rfl <;> rw [tokens_readStatement] <;> decide +kernel
    · intro p hp
      obtain rfl := List.mem_singleton.1 hp
      exact ⟨[⟨.symbol "(", 0⟩, ⟨⟨.variable, "$x"⟩, 1⟩, ⟨.symbol ")", 3⟩], [⟨⟨.variable, "$x"⟩, 1⟩],
        by cbv, by decide +kernel, by decide +kernel⟩

end Api

end CurryGen

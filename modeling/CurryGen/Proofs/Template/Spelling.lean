import CurryGen.Project.Artifacts
import CurryGen.Proofs.Delegation
import CurryGen.Proofs.Example.Line
import CurryGen.Proofs.Token.Written

/-!
# How the functions of a template are spelled

The names and parameters of a template that was read from a source text are tokens of that text, so
they can be written again as tokens.

* `TemplateFunction.Spelled`: a function whose name is a name and whose parameters are variables.
* `spelled_of_findTemplate`: the functions of a template that was read are.
* `Template.named_of_innerParams`: and so are the parameters of the closures that they delegate to.
* `isArgument_of_callShape`: the arguments in generated calls are variables, with `...` at most.
-/

namespace CurryGen

open Scan

/-- Every token stands alone. -/
def Run.Standing (ts : Run) : Prop := ∀ t ∈ ts, Stands t.toToken []

theorem Run.Standing.hereditary : Run.Hereditary Run.Standing := fun _ _ h hus t ht =>
  h t (hus.subset ht)

/-- The name is that of a variable. -/
def Param.Named (p : Param) : Prop := Stands ⟨.variable, "$" ++ p.name⟩ []

section Read

variable {ts : Run}

theorem Run.Standing.stands_variable (h : ts.Standing) {name : String}
    (hname : ts.HasVariable name) :
    Stands ⟨.variable, "$" ++ name⟩ [] := by
  obtain ⟨t, ht, hvariable⟩ := hname
  obtain ⟨hkind, htext⟩ := (h t ht).text_of_variableName? hvariable
  rw [← htext, ← hkind]
  exact h t ht

theorem Run.Standing.named (h : ts.Standing) {p : Param} (hp : p ∈ Param.listOfRun ts) :
    p.Named := by
  obtain ⟨piece, hpiece, hread⟩ := List.mem_filterMap.1 hp
  exact h.stands_variable
    ((Param.hasVariable_of_ofRun? hread).mono (Run.sublist_of_mem_splitTopLevel hpiece))

/-- The parameters of a closure that was read from code come from that code. -/
theorem Expr.From.named {head : ClosureHead} {body : ClosureBody}
    (h : (Expr.closure head body).From Run.Standing) : ∀ p ∈ head.params, p.Named := by
  obtain ⟨source, ts, hts, heq⟩ := h
  have hread := Shape.readFrom_of ts
  have hnamed (hhead : head.ReadFrom ts) : ∀ p ∈ head.params, p.Named := by
    obtain ⟨inner, hinner, hparams⟩ := hhead.params
    rw [hparams]
    exact fun p hp => (Run.Standing.hereditary hts hinner).named hp
  rw [readExpr_eq] at heq
  split at heq <;> cases heq
  · rename_i hshape
    rw [hshape] at hread
    exact hnamed hread.1
  · rename_i hshape
    rw [hshape] at hread
    exact hnamed hread.1

end Read

/-! ## Functions -/

/-- The name of the function is a name, its parameters are variables, and what it returns is read
from tokens. -/
structure TemplateFunction.Spelled (f : TemplateFunction) : Prop where
  name : Stands ⟨.name, f.name⟩ []
  params : ∀ p ∈ f.params, p.Named
  returned : ∀ e, Template.Returns f e → e.From Run.Standing

theorem ClassDecl.IsRead.spelled {c : ClassDecl} (h : c.IsRead) {m : MethodDecl}
    (hm : m ∈ c.methods) :
    TemplateFunction.Spelled ⟨m⟩ := by
  obtain ⟨path, text, file, hread, hc⟩ := h
  obtain ⟨run, hscan, hmethods⟩ := SourceFile.methods_of_read hread
  obtain ⟨hbody, hdeclared⟩ := hmethods c hc m hm
  have hscans : Scans text.toList run.tokens := scans_iff.2 ⟨run, hscan, rfl⟩
  have hstanding : run.Standing := fun t ht => hscans.stands _ (List.mem_map_of_mem ht)
  refine ⟨?_, ?_, ?_⟩
  · obtain ⟨t, ht, hname⟩ := hdeclared.name
    obtain ⟨hkind, htext⟩ := Token.name?_eq_some_iff.1 hname
    have htoken : t.toToken = ⟨.name, m.name⟩ := by rw [← hkind, ← htext]
    rw [← show t.toToken = ⟨.name, TemplateFunction.name ⟨m⟩⟩ from htoken]
    exact hstanding t ht
  · obtain ⟨inner, hinner, hparams⟩ := hbody.params
    intro p hp
    rw [TemplateFunction.params, hparams] at hp
    exact (Run.Standing.hereditary hstanding hinner.isInfix.sublist).named hp
  · intro e he
    obtain ⟨s, hs, hform⟩ := he.exists_mem
    obtain ⟨r, hr, -, rfl⟩ := hbody.exists_run hs
    have hfrom : (readStatement text.toList r).From Run.Standing :=
      ⟨_, r, Run.Standing.hereditary hstanding (List.filter_sublist.trans hr.sublist), rfl⟩
    exact hfrom.ret Run.Standing.hereditary hform

/-- The collection of a function is one of its parameters. -/
theorem TemplateFunction.Spelled.collection {f : TemplateFunction} (h : f.Spelled) {name : String}
    (hname : f.collectionArgument? = some name) : Stands ⟨.variable, "$" ++ name⟩ [] := by
  obtain ⟨p, hp, rfl⟩ := Option.map_eq_some_iff.1 hname
  exact h.params p (List.mem_of_getLast? (Option.eq_some_of_filter_eq_some hp))

/-- The functions of a template that was read from a source text are spelled. -/
theorem spelled_of_findTemplate {c : Config} {path : Path} {text : String} {file : SourceFile}
    {t : Template} (hread : SourceFile.read path text = .ok file)
    (ht : c.findTemplate file = .ok t) :
    ∀ f ∈ t.functions, f.Spelled := by
  obtain ⟨decl, hdecl, ht⟩ := Declaration.exists_of_bind ht
  have hmem : decl ∈ file.classes := by
    unfold ClassRef.find at hdecl
    split at hdecl
    · rename_i c' hclass
      cases hdecl
      exact List.mem_of_find?_eq_some hclass
    · cases hdecl
  intro f hf
  rw [Template.functions_ofClass ht] at hf
  obtain ⟨m, hm, rfl⟩ := List.mem_map.1 hf
  exact ClassDecl.IsRead.spelled ⟨path, text, file, hread, hmem⟩ (List.mem_of_mem_filter hm)

namespace Template

variable {t : Template}

theorem named_of_yields {e : Expr} {ps : List Param} (h : Yields t e (.params ps))
    (he : e.From Run.Standing) : ∀ p ∈ ps, p.Named := by
  cases h with
  | closure => exact he.named
  | curry _ _ _ hargs =>
    cases hargs with
    | found =>
      have hclosure := he.arg Run.Standing.hereditary _ (List.mem_append_cons_self)
      exact hclosure.named
    | absent => simp
  | fix =>
    intro p hp
    obtain rfl := List.mem_singleton.1 hp
    exact ⟨'$', "arguments".toList, rfl, by decide⟩
  | method => simp
  | foreign => simp
  | other => simp

theorem named_of_innerParams (h : ∀ f ∈ t.functions, f.Spelled) {name : String} {ps : List Param}
    (hps : t.innerParams name = .ok ps) : ∀ p ∈ ps, p.Named := by
  obtain ⟨n, hends⟩ := exists_ends_of_walk hps
  clear hps
  induction hends with
  | here hfind hreturned hdelegation =>
    have hf := (find?_eq_some_iff.1 hfind).1
    exact named_of_yields (yields_iff.2 hdelegation)
      ((h _ hf).returned _ (returned?_eq_some_iff.1 hreturned))
  | step _ _ _ _ ih => exact ih

end Template

/-! ## Arguments -/

/-- The text is code without names. -/
def IsArgument (s : String) : Prop :=
  ∃ ts, Covers s.toList ts ∧ ∀ t ∈ ts, t.kind = .variable ∨ t.kind = .symbol

theorem isArgument_variable {v : String} (h : Stands ⟨.variable, v⟩ []) : IsArgument v :=
  ⟨_, h.covers, by simp⟩

theorem isArgument_spread {name : String} (h : Stands ⟨.variable, "$" ++ name⟩ []) :
    IsArgument ("...$" ++ name) := by
  have hdots : Stands (.symbol "...") ("$" ++ name).toList :=
    stands_alone ⟨'.', ['.', '.'], rfl, by decide⟩ (by decide) _
  refine ⟨[.symbol "...", ⟨.variable, "$" ++ name⟩], ?_, by simp [Token.symbol]⟩
  have hcovers := hdots.covers_append h.covers
  have htext : ("...$" ++ name).toList = "...".toList ++ ("$" ++ name).toList := by
    rw [← String.toList_append, ← String.append_assoc]
    rfl
  rw [htext]
  exact hcovers

theorem Param.Named.isArgument {p : Param} (h : p.Named) : IsArgument p.argument := by
  unfold Param.argument
  split
  · exact isArgument_spread h
  · exact isArgument_variable h

namespace CallShape

variable {f : TemplateFunction} {innerParams : List Param}

theorem named_mapLast {ps : List Param} (h : ∀ p ∈ ps, p.Named) :
    ∀ p ∈ mapLast (fun p => { name := p.name, type := some "array" : Param }) ps, p.Named := by
  intro p hp
  rcases List.mem_append.1 hp with hp | hp
  · exact h p (List.dropLast_subset _ hp)
  · obtain ⟨q, hq, rfl⟩ := Option.map_eq_some_iff.1 (Option.mem_toList.1 hp)
    exact h q (List.mem_of_getLast? hq)

theorem named_strip {ps : List Param} (h : ∀ p ∈ ps, p.Named) : ∀ p ∈ ps.map strip, p.Named :=
  List.forall_mem_map.2 h

theorem named_own (h : ∀ p ∈ f.params, p.Named) :
    ∀ p ∈ (CallShape.of f innerParams).own, p.Named := by
  simp only [CallShape.of]
  split
  · exact named_mapLast (named_strip h)
  · exact named_strip h

theorem named_inner (h : ∀ p ∈ innerParams, p.Named) :
    ∀ p ∈ (CallShape.of f innerParams).inner, p.Named := by
  simp only [CallShape.of]
  split
  · exact named_strip fun p hp => h p (List.mem_of_mem_filter hp)
  · simp

theorem isArgument_ownArguments {s : CallShape} (h : ∀ p ∈ s.own, p.Named) :
    ∀ arg ∈ s.ownArguments, IsArgument arg := by
  unfold ownArguments
  split
  · refine List.forall_mem_append.2 ⟨List.forall_mem_map.2 fun p hp =>
      (h p (List.dropLast_subset _ hp)).isArgument, fun arg harg => ?_⟩
    obtain ⟨p, hp, rfl⟩ := Option.map_eq_some_iff.1 (Option.mem_toList.1 harg)
    exact isArgument_spread (h p (List.mem_of_getLast? hp))
  · exact List.forall_mem_map.2 fun p hp => (h p hp).isArgument

theorem isArgument_innerArguments {s : CallShape} (h : ∀ p ∈ s.inner, p.Named) :
    ∀ arg ∈ s.innerArguments, IsArgument arg :=
  List.forall_mem_map.2 fun p hp => (h p hp).isArgument

end CallShape

/-- The arguments in generated calls of a spelled function are code without names. -/
theorem isArgument_of_callShape {t : Template} (h : ∀ f ∈ t.functions, f.Spelled)
    {f : TemplateFunction} (hf : f ∈ t.functions) {s : CallShape} (hs : t.callShape f = .ok s) :
    (∀ arg ∈ s.ownArguments, IsArgument arg) ∧ ∀ arg ∈ s.innerArguments, IsArgument arg := by
  unfold Template.callShape at hs
  split at hs
  · obtain ⟨ps, hps, rfl⟩ := Declaration.exists_of_map hs
    exact ⟨CallShape.isArgument_ownArguments (CallShape.named_own (h f hf).params),
      CallShape.isArgument_innerArguments
        (CallShape.named_inner (Template.named_of_innerParams h hps))⟩
  · obtain rfl := Except.ok.inj hs
    exact ⟨CallShape.isArgument_ownArguments (CallShape.named_own (h f hf).params),
      CallShape.isArgument_innerArguments (CallShape.named_inner (by simp))⟩

end CurryGen

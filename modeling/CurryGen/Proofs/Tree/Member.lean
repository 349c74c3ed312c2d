import CurryGen.Proofs.Tree.ClassForm

/-!
# Declarations from their tokens

What the readers of declarations answer when they are given the tokens of a generated declaration,
whatever follows it.

* `methodTokens`, `readMembers_method`: public methods.
* `useTokens`, `readMembers_use`: trait uses, which declare nothing.
* `readFile_namespace`, `readFile_use`: what stands before a class.
-/

namespace CurryGen.Declaration

open Run Token

variable {ctx : Context} {after : Nat} {name : String} {t : Placed} {ts rest : Run}

/-! ## Members -/

/-- The tokens of a trait use. -/
def useTokens (name : String) : List Token := [⟨.name, "use"⟩, ⟨.name, name⟩, .symbol ";"]

/-- A trait use is passed over. -/
theorem readMembers_use {more : List Token} (hts : ts.tokens = useTokens name ++ more)
    (hafter : after ≤ more.length) :
    ∃ rest : Run, rest.tokens = more ∧
      readMembers ctx after none [] ts = readMembers ctx after none [] rest := by
  obtain ⟨i, ts, rfl, h₁⟩ := exists_cons_of_tokens hts
  obtain ⟨j, ts, rfl, h₂⟩ := exists_cons_of_tokens h₁
  obtain ⟨k, rest, rfl, rfl⟩ := exists_cons_of_tokens h₂
  rw [tokens, List.length_map] at hafter
  have hmodifier : Token.isKeywordIn Param.modifiers ⟨.name, "use"⟩ = false := by decide +kernel
  have hfunction : Token.isKeyword "function" ⟨.name, "use"⟩ = false := by decide +kernel
  have hend : EndsFirst 0 [⟨⟨.name, name⟩, j⟩] ⟨.symbol ";", k⟩ :=
    ⟨.inl rfl, rfl, fun i hi _ => by
      obtain rfl : i = 0 := Nat.lt_one_iff.1 hi
      exact ⟨rfl, rfl⟩⟩
  exact ⟨rest, rfl, readMembers_otherForm hafter
    { lead := ⟨[], by simp⟩
      first := ⟨⟨.name, "use"⟩, i⟩
      inner := [⟨⟨.name, name⟩, j⟩]
      last := ⟨.symbol ";", k⟩
      isDoc_first := rfl
      isModifier_first := hmodifier
      isFunction_first := hfunction
      isOpen_first := rfl
      isClose_first := rfl
      isSemicolon_first := rfl
      endsFirst := hend }⟩

/-- The tokens of a method from its keyword on. -/
def functionTokens (name : String) (params body : List Token) : List Token :=
  ⟨.name, "function"⟩ :: ⟨.name, name⟩ :: .symbol "(" :: (params ++
    .symbol ")" :: .symbol "\x7b" :: (body ++ [.symbol "\x7d"]))

/-- The tokens of a public method. -/
def methodTokens (doc : Option String) (isStatic : Bool) (name : String) (params body : List Token) :
    List Token :=
  doc.toList.map (⟨.doc, ·⟩) ++ ⟨.name, "public"⟩ ::
    ((if isStatic then [⟨.name, "static"⟩] else []) ++ functionTokens name params body)

theorem balanced_methodTokens {params body : List Token} (hparams : balanced 0 params = true)
    (hbody : balanced 0 body = true) (doc : Option String) (isStatic : Bool) (name : String) :
    balanced 0 (methodTokens doc isStatic name params body) = true := by
  have hfront : balanced 0 (doc.toList.map (⟨.doc, ·⟩) ++ ⟨.name, "public"⟩ ::
      ((if isStatic then [⟨.name, "static"⟩] else []) ++ [⟨.name, "function"⟩, ⟨.name, name⟩])) =
      true := by
    cases doc <;> cases isStatic <;> rfl
  have hgroups : balanced 0 (.symbol "(" :: (params ++ [.symbol ")"]) ++
      .symbol "\x7b" :: (body ++ [.symbol "\x7d"])) = true :=
    (balanced_append (balanced_group rfl rfl hparams) 0).trans (balanced_group rfl rfl hbody)
  have hall := (balanced_append hfront 0).trans hgroups
  simpa [methodTokens, functionTokens] using hall

/-- What stands in front of a public method. -/
theorem exists_lead {doc : Option String} {isStatic : Bool} {comment static : Run} (i : Nat)
    (hcomment : comment.tokens = doc.toList.map (⟨.doc, ·⟩))
    (hstatic : static.tokens = if isStatic then [⟨.name, "static"⟩] else []) :
    ∃ lead : Lead, lead.run = comment ++ ⟨⟨.name, "public"⟩, i⟩ :: static ∧ lead.doc = doc ∧
      lead.modifiers = "public" :: if isStatic then ["static"] else [] := by
  have hpublic : Token.isKeywordIn Param.modifiers ⟨.name, "public"⟩ = true := by decide +kernel
  have hlower : "public".toLower = "public" := by decide +kernel
  have hdocs : ∀ t ∈ comment, t.isDoc = true := by
    refine forall_of_tokens (P := (·.isDoc = true)) hcomment fun t ht => ?_
    obtain ⟨text, -, rfl⟩ := List.mem_map.1 ht
    rfl
  have hwords : ∀ t ∈ static, t.isKeywordIn Param.modifiers = true := by
    refine forall_of_tokens (P := (·.isKeywordIn Param.modifiers = true)) hstatic fun t ht => ?_
    cases isStatic with
    | false => cases ht
    | true =>
      rw [List.mem_singleton.1 ht]
      decide +kernel
  have hnone : ∀ t ∈ static, t.isDoc = false := fun t ht => by
    simp [Token.isDoc, kind_of_isKeywordIn (hwords t ht)]
  refine ⟨⟨comment ++ ⟨⟨.name, "public"⟩, i⟩ :: static, ?_⟩, rfl, ?_, ?_⟩
  · refine List.forall_mem_append.2 ⟨fun t ht => .inl (hdocs t ht), ?_⟩
    exact List.forall_mem_cons.2 ⟨.inr hpublic, fun t ht => .inr (hwords t ht)⟩
  · have hfilter : (comment ++ ⟨⟨.name, "public"⟩, i⟩ :: static).filter (·.isDoc) = comment := by
      rw [List.filter_append, List.filter_eq_self.2 hdocs, List.filter_cons_of_neg Bool.false_ne_true,
        List.filter_eq_nil_iff.2 (by simpa using hnone), List.append_nil]
    have hlast : comment.getLast?.map (·.text) = comment.tokens.getLast?.map (·.text) := by
      rw [tokens, List.getLast?_map, Option.map_map]
      rfl
    rw [Lead.doc, hfilter, hlast, hcomment]
    cases doc <;> rfl
  · have hfilter : (comment ++ ⟨⟨.name, "public"⟩, i⟩ :: static).filter (!·.isDoc) =
        ⟨⟨.name, "public"⟩, i⟩ :: static := by
      rw [List.filter_append, List.filter_eq_nil_iff.2 (by simpa using hdocs),
        List.filter_cons_of_pos rfl, List.filter_eq_self.2 (by simpa using hnone),
        List.nil_append]
    have hmap : static.map (·.text.toLower) = static.tokens.map (·.text.toLower) := by
      rw [tokens, List.map_map]
      rfl
    rw [Lead.modifiers, hfilter, List.map_cons, hlower, hmap, hstatic]
    cases isStatic with
    | false => rfl
    | true => decide +kernel

section

variable {params body more : List Token} (hparams : balanced 0 params = true)
  (hbody : balanced 0 body = true) (hafter : after ≤ more.length)

include hparams hbody hafter

/-- A public method is read with its documentation comment. -/
theorem readMembers_method (doc : Option String) (isStatic : Bool)
    (hts : ts.tokens = methodTokens doc isStatic name params body ++ more) :
    ∃ inner block rest : Run, inner.tokens = params ∧ block.tokens = body ∧ rest.tokens = more ∧
      readMembers ctx after none [] ts = (readMembers ctx after none [] rest).map
        ({ doc, modifiers := "public" :: (if isStatic then ["static"] else []), name,
           params := Param.listOfRun inner,
           body := some (readStatements ctx.source block) } :: ·) := by
  rw [methodTokens, List.append_assoc, List.cons_append, List.append_assoc, functionTokens,
    List.cons_append, List.cons_append, List.cons_append, List.append_assoc, List.cons_append,
    List.cons_append, List.append_assoc] at hts
  obtain ⟨comment, ts, rfl, hcomment, h₁⟩ := exists_append_of_tokens hts
  obtain ⟨f, ts, rfl, h₂⟩ := exists_cons_of_tokens h₁
  obtain ⟨static, ts, rfl, hstatic, h₃⟩ := exists_append_of_tokens h₂
  obtain ⟨g, ts, rfl, h₄⟩ := exists_cons_of_tokens h₃
  obtain ⟨h, ts, rfl, h₅⟩ := exists_cons_of_tokens h₄
  obtain ⟨i, ts, rfl, h₆⟩ := exists_cons_of_tokens h₅
  obtain ⟨inner, ts, rfl, rfl, h₇⟩ := exists_append_of_tokens h₆
  obtain ⟨j, ts, rfl, h₈⟩ := exists_cons_of_tokens h₇
  obtain ⟨k, ts, rfl, h₉⟩ := exists_cons_of_tokens h₈
  obtain ⟨block, ts, rfl, rfl, h₁₀⟩ := exists_append_of_tokens h₉
  obtain ⟨l, rest, rfl, rfl⟩ := exists_cons_of_tokens h₁₀
  rw [tokens, List.length_map] at hafter
  have hfunction : Token.isKeyword "function" ⟨.name, "function"⟩ = true := by decide +kernel
  obtain ⟨lead, hrun, hdoc, hmodifiers⟩ := exists_lead f hcomment hstatic
  have hmember := @readMembers_methodForm ctx _ _ hafter
    { lead
      keyword := ⟨⟨.name, "function"⟩, g⟩
      reference := none
      name := ⟨⟨.name, name⟩, h⟩
      params := ⟨⟨.symbol "(", i⟩, inner, ⟨.symbol ")", j⟩, rfl, rfl, hparams⟩
      returns := none
      body := .block ⟨⟨.symbol "\x7b", k⟩, block, ⟨.symbol "\x7d", l⟩, rfl, rfl, hbody⟩ rfl
      isKeyword_keyword := hfunction
      isSymbol_reference := by simp
      kind_name := rfl
      isSymbol_params := rfl }
  refine ⟨inner, block, rest, rfl, rfl, rfl, ?_⟩
  rw [← hmodifiers, ← hdoc]
  simpa [MethodForm.run, MethodForm.signature, MethodForm.decl, BodyForm.run, BodyForm.statements,
    Group.run, hrun] using hmember

end

/-! ## Files -/

theorem readFile_doc (afterScope : Bool) (ht : t.isDoc = true) :
    readFile ctx afterScope (t :: rest) = readFile ctx false rest := by
  have hkind : t.kind = .doc := eq_of_beq ht
  have hkeyword (word : String) : t.isKeyword word = false := by
    simp [Token.isKeyword, Token.isKeywordIn, hkind]
  have hclass : ClassKind.ofToken? t.toToken = none := by simp [ClassKind.ofToken?, hkeyword]
  have hscope : t.isSymbol "::" = false := by simp [Token.isSymbol, hkind]
  rw [readFile.eq_def]
  simp only [hkeyword, hclass, hscope, ite_self, Bool.false_eq_true, if_false]

theorem readFile_namespace (afterScope : Bool) (hname : name ≠ "") (i j k : Nat) {file : SourceFile}
    (h : readFile ctx false rest = .ok file) :
    readFile ctx afterScope
        (⟨⟨.name, "namespace"⟩, i⟩ :: ⟨⟨.name, name⟩, j⟩ :: ⟨.symbol ";", k⟩ :: rest) =
      .ok { file with namespaceName := file.namespaceName <|> some name } := by
  have hkeyword : Token.isKeyword "namespace" ⟨.name, "namespace"⟩ = true := by decide +kernel
  have htake : (⟨⟨.name, name⟩, j⟩ :: ⟨.symbol ";", k⟩ :: rest : Run).takeWhile
      (!isEither ";" "\x7b" ·) = [⟨⟨.name, name⟩, j⟩] := rfl
  have hdrop : (⟨⟨.name, name⟩, j⟩ :: ⟨.symbol ";", k⟩ :: rest : Run).dropWhile
      (!isEither ";" "\x7b" ·) = ⟨.symbol ";", k⟩ :: rest := rfl
  have hformat : Run.format [⟨⟨.name, name⟩, j⟩] = name := by
    have hcode : Run.tokens [⟨⟨.name, name⟩, j⟩] = [⟨.name, name⟩] := rfl
    have hkeep : [(⟨.name, name⟩ : Token)].filter (!·.isDoc) = [⟨.name, name⟩] := rfl
    rw [Run.format, hcode, Token.format, hkeep, spaced, spacedAfter, String.join_cons]
    exact String.append_empty
  rw [readFile.eq_def]
  simp only [hkeyword, htake, hdrop, hformat, hname, List.drop_succ_cons, List.drop_zero, h, if_true,
    if_false]
  rfl

theorem readFile_use (afterScope : Bool) {imported : Run}
    (himported : ∀ t ∈ imported, t.isSymbol ";" = false) (i j : Nat) {file : SourceFile}
    (h : readFile ctx false rest = .ok file) :
    readFile ctx afterScope (⟨⟨.name, "use"⟩, i⟩ :: (imported ++ ⟨.symbol ";", j⟩ :: rest)) =
      .ok { file with imports := imported.format :: file.imports } := by
  have hnamespace : Token.isKeyword "namespace" ⟨.name, "use"⟩ = false := by decide +kernel
  have hkeyword : Token.isKeyword "use" ⟨.name, "use"⟩ = true := by decide +kernel
  have hunended : ∀ t ∈ imported, (!t.isSymbol ";") = true := fun t ht => by
    rw [himported t ht]
    rfl
  have htake : (imported ++ ⟨.symbol ";", j⟩ :: rest).takeWhile (!·.isSymbol ";") = imported := by
    rw [List.takeWhile_append_of_pos hunended]
    exact List.append_nil _
  have hdrop : (imported ++ ⟨.symbol ";", j⟩ :: rest).dropWhile (!·.isSymbol ";") =
      ⟨.symbol ";", j⟩ :: rest := by
    rw [List.dropWhile_append_of_pos hunended]
    rfl
  rw [readFile.eq_def]
  simp only [hnamespace, hkeyword, htake, hdrop, List.drop_succ_cons, List.drop_zero, h, if_true,
    Bool.false_eq_true, if_false]
  rfl

end CurryGen.Declaration

import CurryGen.Proofs.Token.Bracket
import CurryGen.Tree.Source

/-!
# Where methods stand

Whatever a file declares, the parameters and the body of each of its methods are read from balanced
tokens between brackets of the file, and its name and its documentation are tokens of the file.

* `Declaration.ReadsClasses`: the classes that a walk through the declarations of a file reads.
* `MethodDecl.ReadFrom`, `MethodDecl.DeclaredIn`: a method is read from these tokens, and is declared
  by them.
* `SourceFile.methods_of_read`: every method of a file is read from the tokens of its text.
-/

namespace CurryGen

/-- Tokens that stand between brackets in a run. -/
def Run.Encloses (ts inner : Run) : Prop := ∃ us rest, us <:+ ts ∧ Run.group? us = some (inner, rest)

namespace Run.Encloses

variable {ts us inner : Run}

theorem of_isSuffix (h : us.Encloses inner) (hsuffix : us <:+ ts) : ts.Encloses inner := by
  obtain ⟨vs, rest, hvs, hgroup⟩ := h
  exact ⟨vs, rest, hvs.trans hsuffix, hgroup⟩

theorem of_group? {rest : Run} (h : Run.group? ts = some (inner, rest)) : ts.Encloses inner :=
  ⟨ts, rest, List.suffix_rfl, h⟩

theorem balanced (h : ts.Encloses inner) : Token.balanced 0 inner.tokens = true := by
  obtain ⟨us, rest, -, hgroup⟩ := h
  obtain ⟨-, -, -, -, -, hbalanced⟩ := Run.group?_eq_some_iff.1 hgroup
  exact hbalanced

theorem isInfix (h : ts.Encloses inner) : inner <:+: ts := by
  obtain ⟨us, rest, hsuffix, hgroup⟩ := h
  obtain ⟨opening, close, rfl, -⟩ := Run.group?_eq_some_iff.1 hgroup
  exact List.IsInfix.trans ⟨[opening], close :: rest, by simp⟩ hsuffix.isInfix

end Run.Encloses

theorem Run.isSuffix_of_group? {ts inner rest : Run} (h : ts.group? = some (inner, rest)) :
    rest <:+ ts := by
  obtain ⟨opening, close, rfl, -⟩ := Run.group?_eq_some_iff.1 h
  exact ⟨opening :: inner ++ [close], by simp⟩

/-- The parameters and the statements of a method are read from tokens between brackets. -/
structure MethodDecl.ReadFrom (source : List Char) (ts : Run) (m : MethodDecl) : Prop where
  params : ∃ inner, ts.Encloses inner ∧ m.params = Param.listOfRun inner
  body : m.body = none ∨ ∃ inner, ts.Encloses inner ∧ m.body = some (readStatements source inner)

theorem MethodDecl.ReadFrom.of_isSuffix {source : List Char} {ts us : Run} {m : MethodDecl}
    (h : m.ReadFrom source us) (hsuffix : us <:+ ts) : m.ReadFrom source ts := by
  obtain ⟨⟨inner, hinner, hparams⟩, hbody⟩ := h
  refine ⟨⟨inner, hinner.of_isSuffix hsuffix, hparams⟩, hbody.imp_right ?_⟩
  intro hread
  obtain ⟨inner, hinner, hbody⟩ := hread
  exact ⟨inner, hinner.of_isSuffix hsuffix, hbody⟩

/-- The name and the documentation of a method are tokens of the run. -/
structure MethodDecl.DeclaredIn (ts : Run) (m : MethodDecl) : Prop where
  name : ∃ t ∈ ts, t.name? = some m.name
  doc : ∀ text ∈ m.doc, ∃ t ∈ ts, t.isDoc = true ∧ t.text = text

namespace Declaration

variable {ctx : Context} {ts rest : Run}

theorem exists_of_bind {ε α β : Type} {x : Except ε α} {f : α → Except ε β} {r : β}
    (h : x >>= f = .ok r) : ∃ a, x = .ok a ∧ f a = .ok r := by
  cases x with
  | error e => cases h
  | ok a => exact ⟨a, rfl, h⟩

theorem exists_of_map {ε α β : Type} {x : Except ε α} {f : α → β} {r : β} (h : x.map f = .ok r) :
    ∃ a, x = .ok a ∧ f a = r := by
  cases x with
  | error e => cases h
  | ok a => exact ⟨a, rfl, Except.ok.inj h⟩

theorem exists_of_toOption_isSome {ε α : Type} {x : Except ε α} (h : x.toOption.isSome = true) :
    ∃ a, x = .ok a := by
  cases x with
  | error e => cases h
  | ok a => exact ⟨a, rfl⟩

theorem mapM_cons_eq_ok_iff {ε α β : Type} {f : α → Except ε β} {a : α} {l : List α} {r : List β} :
    (a :: l).mapM f = .ok r ↔ ∃ b bs, f a = .ok b ∧ l.mapM f = .ok bs ∧ r = b :: bs := by
  rw [List.mapM_cons]
  constructor
  · intro h
    obtain ⟨b, hb, h⟩ := exists_of_bind h
    obtain ⟨bs, hbs, h⟩ := exists_of_bind h
    exact ⟨b, bs, hb, hbs, (Except.ok.inj h).symm⟩
  · rintro ⟨b, bs, hb, hbs, rfl⟩
    rw [hb, hbs]
    rfl

theorem methodType_isSuffix (ts : Run) : (methodType ts).2 <:+ ts := by
  unfold methodType
  split
  · exact (List.dropWhile_suffix _).trans (List.drop_suffix 1 ts)
  · exact List.suffix_rfl

theorem body_of_readBody {method : String} {body : Option (List Stmt)}
    (h : readBody ctx method ts = .ok (body, rest)) :
    rest <:+ ts ∧
      (body = none ∨
        ∃ inner, ts.Encloses inner ∧ body = some (readStatements ctx.source inner)) := by
  rcases exists_of_readBody h with ⟨rfl, rfl⟩ | ⟨inner, hgroup, rfl⟩
  · exact ⟨List.drop_suffix 1 ts, .inl rfl⟩
  · exact ⟨Run.isSuffix_of_group? hgroup, .inr ⟨inner, .of_group? hgroup, rfl⟩⟩

theorem readFrom_of_readMethod {doc : Option String} {modifiers : List String} {keyword : Placed}
    {m : MethodDecl} (h : readMethod ctx doc modifiers keyword ts = .ok (m, rest)) :
    rest <:+ ts ∧ m.ReadFrom ctx.source ts ∧ m.doc = doc ∧ ∃ t ∈ ts, t.name? = some m.name := by
  obtain ⟨t, us, inner, after, hus, hname, hgroup, hbody, heq⟩ := exists_of_readMethod h
  have hname_us : t :: us <:+ ts := by
    rw [← hus]
    split
    · exact List.drop_suffix 1 ts
    · exact List.suffix_rfl
  have hsuffix : us <:+ ts := (List.suffix_cons t us).trans hname_us
  obtain ⟨hend, hstatements⟩ := body_of_readBody hbody
  have hafter : (methodType after).2 <:+ us :=
    (methodType_isSuffix after).trans (Run.isSuffix_of_group? hgroup)
  have hparams : m.params = Param.listOfRun inner := by rw [heq]
  have hread : m.ReadFrom ctx.source us := by
    refine ⟨⟨inner, .of_group? hgroup, hparams⟩, hstatements.imp_right ?_⟩
    exact fun ⟨inner', hinner, heq⟩ => ⟨inner', hinner.of_isSuffix hafter, heq⟩
  refine ⟨(hend.trans hafter).trans hsuffix, hread.of_isSuffix hsuffix, by rw [heq], t, ?_, hname⟩
  exact hname_us.subset List.mem_cons_self

/-! ## Walking through the declarations -/

section

variable {all : Run} {P : MethodDecl → Prop}
  (hmethod : ∀ {doc : Option String} {modifiers : List String} {keyword : Placed} {us rest : Run}
    {m : MethodDecl}, us <:+ all → (∀ text ∈ doc, ∃ t ∈ all, t.isDoc = true ∧ t.text = text) →
    readMethod ctx doc modifiers keyword us = .ok (m, rest) → P m)

include hmethod

theorem forall_of_readMembers {after : Nat} {doc : Option String} {modifiers : List String}
    {ms : List MethodDecl} (hts : ts <:+ all)
    (hdocs : ∀ text ∈ doc, ∃ t ∈ all, t.isDoc = true ∧ t.text = text)
    (h : readMembers ctx after doc modifiers ts = .ok ms) : ∀ m ∈ ms, P m := by
  have hnone : ∀ text ∈ (none : Option String), ∃ t ∈ all, t.isDoc = true ∧ t.text = text := nofun
  induction doc, modifiers, ts using readMembers.induct ctx after generalizing ms with
  | case1 doc modifiers ts hend =>
    rw [readMembers.eq_def, if_pos hend] at h
    cases h
    nofun
  | case2 doc modifiers hend =>
    rw [readMembers.eq_def, if_neg hend] at h
    cases h
    nofun
  | case3 doc modifiers t tail hdoc hend ih =>
    rw [readMembers.eq_def, if_neg hend] at h
    simp only [hdoc, if_true] at h
    refine ih ((List.suffix_cons t tail).trans hts) (fun text htext => ?_) h
    obtain rfl := Option.mem_some_iff.1 htext
    exact ⟨t, hts.subset List.mem_cons_self, hdoc, rfl⟩
  | case4 doc modifiers t tail hdoc hmodifier hend ih =>
    rw [readMembers.eq_def, if_neg hend] at h
    simp only [hdoc, hmodifier, if_true, Bool.false_eq_true, if_false] at h
    exact ih ((List.suffix_cons t tail).trans hts) hdocs h
  | case5 doc modifiers t tail hdoc hmodifier hfunction e hread hend =>
    rw [readMembers.eq_def, if_neg hend] at h
    simp only [hdoc, hmodifier, hfunction, if_true, Bool.false_eq_true, if_false] at h
    split at h
    · cases h
    · rename_i hread'
      rw [hread] at hread'
      cases hread'
  | case6 doc modifiers t tail hdoc hmodifier hfunction method rest hread hend ih =>
    rw [readMembers.eq_def, if_neg hend] at h
    simp only [hdoc, hmodifier, hfunction, if_true, Bool.false_eq_true, if_false] at h
    split at h
    · cases h
    · rename_i method' rest' hread'
      rw [hread] at hread'
      cases hread'
      obtain ⟨ms', htail, heq⟩ := exists_of_map h
      cases heq
      have hsuffix := (List.suffix_cons t tail).trans hts
      refine List.forall_mem_cons.2 ⟨hmethod hsuffix hdocs hread, ?_⟩
      exact ih ((readFrom_of_readMethod hread).1.trans hsuffix) hnone htail
  | case7 doc modifiers t tail hdoc hmodifier hfunction hend ih =>
    rw [readMembers.eq_def, if_neg hend] at h
    simp only [hdoc, hmodifier, hfunction, Bool.false_eq_true, if_false] at h
    exact ih (((List.drop_suffix _ tail).trans (List.suffix_cons t tail)).trans hts) hnone h

theorem forall_of_readClass {kind : ClassKind} {keyword : Placed} {c : ClassDecl} (hts : ts <:+ all)
    (h : readClass ctx kind keyword ts = .ok (c, rest)) :
    rest <:+ ts ∧ ∀ m ∈ c.methods, P m := by
  obtain ⟨name, inner, methods, -, hgroup, hmethods, rfl⟩ := exists_of_readClass h
  have hopening : (ts.drop 1).dropWhile (!·.isSymbol "\x7b") <:+ ts :=
    (List.dropWhile_suffix _).trans (List.drop_suffix 1 ts)
  refine ⟨(Run.isSuffix_of_group? hgroup).trans hopening, ?_⟩
  exact forall_of_readMembers hmethod (((List.drop_suffix 1 _).trans hopening).trans hts)
    (by nofun) hmethods

end

theorem readFile_class {afterScope : Bool} {t : Placed} {kind : ClassKind} {c : ClassDecl}
    (hnamespace : t.isKeyword "namespace" = false) (huse : t.isKeyword "use" = false)
    (hkind : (if afterScope then none else ClassKind.ofToken? t.toToken) = some kind)
    (hclass : readClass ctx kind t ts = .ok (c, rest)) :
    readFile ctx afterScope (t :: ts) = do
      let file ← readFile ctx false rest
      return { file with classes := c :: file.classes } := by
  rw [readFile.eq_def]
  simp only [hnamespace, huse, hkind, Bool.false_eq_true, if_false]
  split
  · rename_i hclass'
    rw [hclass] at hclass'
    cases hclass'
  · rename_i hclass'
    rw [hclass] at hclass'
    cases hclass'
    rfl

/-- A class that ends the file is its only declaration. -/
theorem readFile_regular {t : Placed} (ht : t.toToken = ⟨.name, "class"⟩) {c : ClassDecl}
    (hclass : readClass ctx .regular t ts = .ok (c, [])) :
    readFile ctx false (t :: ts) = .ok { classes := [c] } := by
  have hnamespace : t.isKeyword "namespace" = false := by
    rw [ht]
    decide +kernel
  have huse : t.isKeyword "use" = false := by
    rw [ht]
    decide +kernel
  have hkind : (if false then none else ClassKind.ofToken? t.toToken) = some .regular := by
    rw [ht]
    decide +kernel
  rw [readFile_class hnamespace huse hkind hclass, readFile.eq_def]
  rfl

/-- The classes that are read from a run, with what stands before and between them passed over. -/
inductive ReadsClasses (ctx : Context) : Run → List ClassDecl → Prop
  | nil : ReadsClasses ctx [] []
  | pass {t : Placed} {ts us : Run} {cs : List ClassDecl} :
      us <:+ ts → ReadsClasses ctx us cs → ReadsClasses ctx (t :: ts) cs
  | declared {t : Placed} {kind : ClassKind} {ts rest : Run} {c : ClassDecl} {cs : List ClassDecl} :
      ClassKind.ofToken? t.toToken = some kind → readClass ctx kind t ts = .ok (c, rest) →
      ReadsClasses ctx rest cs → ReadsClasses ctx (t :: ts) (c :: cs)

theorem readsClasses_of_readFile {afterScope : Bool} {file : SourceFile}
    (h : readFile ctx afterScope ts = .ok file) : ReadsClasses ctx ts file.classes := by
  induction afterScope, ts using readFile.induct ctx generalizing file with
  | case1 afterScope =>
    rw [readFile.eq_def] at h
    cases h
    exact .nil
  | case2 afterScope t tail hnamespace ih =>
    rw [readFile.eq_def] at h
    simp only [hnamespace, if_true] at h
    obtain ⟨f, hf, heq⟩ := exists_of_bind h
    cases heq
    have hclasses : ReadsClasses ctx _ f.classes := ih hf
    exact .pass ((List.drop_suffix 1 _).trans (List.dropWhile_suffix (!isEither ";" "\x7b" ·)))
      hclasses
  | case3 afterScope t tail hnamespace huse ih =>
    rw [readFile.eq_def] at h
    simp only [hnamespace, huse, if_true, Bool.false_eq_true, if_false] at h
    obtain ⟨f, hf, heq⟩ := exists_of_bind h
    cases heq
    have hclasses : ReadsClasses ctx _ f.classes := ih hf
    exact .pass ((List.drop_suffix 1 _).trans
      (List.dropWhile_suffix (fun t : Placed => !t.isSymbol ";"))) hclasses
  | case4 afterScope t tail hnamespace huse kind hkind e hclass =>
    rw [readFile.eq_def] at h
    simp only [hnamespace, huse, Bool.false_eq_true, if_false] at h
    rw [dite_eq_ite] at hkind
    simp only [hkind] at h
    split at h
    · cases h
    · rename_i hclass'
      rw [hclass] at hclass'
      cases hclass'
  | case5 afterScope t tail hnamespace huse kind hkind c rest hclass ih =>
    rw [Bool.not_eq_true] at hnamespace huse
    rw [dite_eq_ite] at hkind
    rw [readFile_class hnamespace huse hkind hclass] at h
    obtain ⟨f, hf, heq⟩ := exists_of_bind h
    cases heq
    have hkeyword : ClassKind.ofToken? t.toToken = some kind := by
      split at hkind
      · cases hkind
      · exact hkind
    exact .declared hkeyword hclass (ih hf)
  | case6 afterScope t tail hnamespace huse hkind ih =>
    rw [readFile.eq_def] at h
    simp only [hnamespace, huse, Bool.false_eq_true, if_false] at h
    rw [dite_eq_ite] at hkind
    rw [hkind] at h
    exact .pass List.suffix_rfl (ih h)

/-- What holds of every method that is read somewhere in a run holds of all methods of its classes. -/
theorem ReadsClasses.forall_methods {all : Run} {P : MethodDecl → Prop}
    (hmethod : ∀ {doc : Option String} {modifiers : List String} {keyword : Placed} {us rest : Run}
      {m : MethodDecl}, us <:+ all → (∀ text ∈ doc, ∃ t ∈ all, t.isDoc = true ∧ t.text = text) →
      readMethod ctx doc modifiers keyword us = .ok (m, rest) → P m)
    {cs : List ClassDecl} (hts : ts <:+ all) (h : ReadsClasses ctx ts cs) :
    ∀ c ∈ cs, ∀ m ∈ c.methods, P m := by
  induction h with
  | nil => nofun
  | pass hsuffix _ ih => exact ih (hsuffix.trans ((List.suffix_cons _ _).trans hts))
  | declared _ hclass _ ih =>
    have hsuffix := (List.suffix_cons _ _).trans hts
    obtain ⟨hrest, hmethods⟩ := forall_of_readClass hmethod hsuffix hclass
    exact List.forall_mem_cons.2 ⟨hmethods, ih (hrest.trans hsuffix)⟩

end Declaration

/-- Every method of a file is read from the tokens of its text, and declared by them. -/
theorem SourceFile.methods_of_read {path : Path} {text : String} {file : SourceFile}
    (h : SourceFile.read path text = .ok file) :
    ∃ run, scan text.toList = .ok run ∧
      ∀ c ∈ file.classes, ∀ m ∈ c.methods, m.ReadFrom text.toList run ∧ m.DeclaredIn run := by
  rw [SourceFile.read, Run.read] at h
  cases hscan : scan text.toList with
  | error stuck =>
    rw [hscan] at h
    cases h
  | ok run =>
    rw [hscan] at h
    simp only at h
    split at h
    · cases h
    · rename_i hfile
      cases h
      have hclasses := Declaration.readsClasses_of_readFile hfile
      refine ⟨run, rfl, hclasses.forall_methods ?_ List.suffix_rfl⟩
      intro doc modifiers keyword us rest m hus hdocs hread
      obtain ⟨-, hfrom, rfl, t, ht, hname⟩ := Declaration.readFrom_of_readMethod hread
      exact ⟨hfrom.of_isSuffix hus, ⟨t, hus.subset ht, hname⟩, hdocs⟩

theorem SourceFile.readFrom_of_read {path : Path} {text : String} {file : SourceFile}
    (h : SourceFile.read path text = .ok file) :
    ∃ run, scan text.toList = .ok run ∧
      ∀ c ∈ file.classes, ∀ m ∈ c.methods, m.ReadFrom text.toList run := by
  obtain ⟨run, hrun, hmethods⟩ := SourceFile.methods_of_read h
  exact ⟨run, hrun, fun c hc m hm => (hmethods c hc m hm).1⟩

/-- A file that is a class alone declares that class. -/
theorem SourceFile.read_class {path : Path} {text : String} {first : Placed} {rest : Run}
    {c : ClassDecl} (hscan : scan text.toList = .ok (first :: rest))
    (hfirst : first.toToken = ⟨.name, "class"⟩)
    (hclass : ∀ last, Declaration.readClass ⟨text.toList, last⟩ .regular first rest = .ok (c, [])) :
    SourceFile.read path text = .ok { classes := [c] } := by
  rw [SourceFile.read, Run.read, hscan]
  simp only
  rw [Declaration.readFile_regular hfirst (hclass _)]

end CurryGen

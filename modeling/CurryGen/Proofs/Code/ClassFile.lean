import CurryGen.Proofs.Code.Comment
import CurryGen.Proofs.Token.Written
import CurryGen.Proofs.Tree.Member
import CurryGen.Proofs.Tree.Param
import Mathlib.Data.List.DropRight

/-!
# Class files read again

The text of a class file whose parts are well formed is read as what was written: its namespace, its
imports and its class with the given methods.

* `ClassFile.WellFormed`: files with well formed parts.
* `Method.Written`, `Class.tokens`, `ClassFile.tokens`: the tokens that the parts are written with.
* `Method.IsReadAs`: what is read of a method.
* `ClassFile.read_render`: what is read of a file.
-/

namespace CurryGen.Code

open Scan Token Declaration

/-! ## Well formed parts -/

/-- A text that is one name. -/
def IsName (s : String) : Prop := ∃ ts, scan s.toList = .ok ts ∧ ts.tokens = [⟨.name, s⟩]

/-- An import: tokens with normal spacing, none of which ends it. -/
def IsImport (s : String) : Prop :=
  ∃ ts, scan s.toList = .ok ts ∧ ts.format = s ∧ ∀ t ∈ ts, t.isSymbol ";" = false

/-- Lines with these tokens, which are balanced. No string spans two of the lines. -/
structure IsBody (lines : List String) (ts : Run) : Prop where
  scan : scan ("\n".intercalate lines).toList = .ok ts
  balanced : balanced 0 ts.tokens = true
  strings : ∀ t ∈ ts, t.kind = .string → ∀ o ∈ joints 0 lines, ¬(t.start ≤ o ∧ o < t.stop)

structure Method.WellFormed (m : Method) : Prop where
  doc : ∀ lines ∈ m.doc, ∀ line ∈ lines, IsCommentLine line
  name : IsName m.name
  params : ∀ p ∈ m.params, p.ParsesBack
  body : ∃ ts, IsBody m.body ts

structure Class.WellFormed (c : Class) : Prop where
  doc : ∀ lines ∈ c.doc, ∀ line ∈ lines, IsCommentLine line
  name : IsName c.name
  parent : ∀ parent ∈ c.parent, IsName parent
  traits : ∀ name ∈ c.traits, IsName name
  methods : ∀ m ∈ c.methods, m.WellFormed

structure ClassFile.WellFormed (f : ClassFile) : Prop where
  header : ∀ line ∈ f.header, IsCommentLine line
  namespaceName : ∀ name ∈ f.namespaceName, IsName name
  imports : ∀ imported ∈ f.imports, IsImport imported
  content : f.content.WellFormed

/-! ## Lines -/

variable {s : String} {ts us : List Token} {y : List Char}

theorem isName_of_isIdentifier (h : isIdentifier s = true) : IsName s := by
  have hscans := (stands_identifier h).scans .nil
  rw [List.append_nil] at hscans
  exact scans_iff.1 hscans

theorem IsName.stands (h : IsName s) : Stands ⟨.name, s⟩ [] := by
  obtain ⟨ts, hscan, hts⟩ := h
  exact (scans_iff.2 ⟨ts, hscan, hts⟩).stands _ List.mem_cons_self

theorem IsName.ne_empty (h : IsName s) : s ≠ "" := by
  obtain ⟨c, w, htext, -⟩ := h.stands
  rintro rfl
  cases htext

theorem IsImport.exists_covers (h : IsImport s) :
    ∃ ts : List Token, Covers s.toList ts ∧ Token.format ts = s ∧
      ∀ t ∈ ts, t.isSymbol ";" = false := by
  obtain ⟨ts, hscan, hformat, hends⟩ := h
  have hscans : Scans s.toList ts.tokens := scans_iff.2 ⟨ts, hscan, rfl⟩
  -- the normalised text has no characters but those of the tokens
  have hle : Text.solid s.toList ≤ Token.solid ts.tokens := by
    have hformat : Token.format ts.tokens = s := hformat
    rw [← hformat, solid_format]
    exact solid_le_of_sublist List.filter_sublist
  refine ⟨ts.tokens, hscans.covers hle, hformat, fun t ht => ?_⟩
  obtain ⟨u, hu, rfl⟩ := List.mem_map.1 ht
  exact hends u hu

theorem scans_word (h : Stands ⟨.name, s⟩ []) (hy : Scans y us) :
    Scans (s.toList ++ ' ' :: y) (⟨.name, s⟩ :: us) :=
  h.scans_before nofun (d := ' ') (by decide) (.space rfl hy)

/-- A line such as `use Name;`. -/
theorem scans_directive {w : String} (hw : isIdentifier w = true) (h : Covers s.toList ts) :
    Scans (w ++ " " ++ s ++ ";").toList (⟨.name, w⟩ :: (ts ++ [.symbol ";"])) := by
  have hend : Scans ";".toList [.symbol ";"] := scans_solitary (by decide)
  have hall := scans_word (stands_identifier hw)
    (h.append_separator (d := ';') (by decide) hend)
  simpa using hall

/-- The line that begins a method. -/
theorem scans_signature {name : String} (hname : IsName name) (isStatic : Bool) {ps : List Param}
    {inner : Run} (h : Param.TokensOfList ps inner) :
    Scans ((if isStatic then "public static" else "public") ++ " function " ++ name ++ "(" ++
        Param.list ps ++ ")").toList
      (⟨.name, "public"⟩ :: ((if isStatic then [⟨.name, "static"⟩] else []) ++
        ⟨.name, "function"⟩ :: ⟨.name, name⟩ :: .symbol "(" ::
          (inner.tokens ++ [.symbol ")"]))) := by
  have hlist := h.scans ')' [] _ (by decide) (scans_solitary (s := ")") (by decide))
  have hfunction := scans_word (s := "function") (stands_identifier (by decide))
    (hname.stands.scans_before nofun (d := '(') (by decide)
      (scans_symbol (s := "(") (by decide) hlist))
  have hpublic {y : List Char} {us : List Token} (hy : Scans y us) :
      Scans ("public".toList ++ ' ' :: y) (⟨.name, "public"⟩ :: us) :=
    scans_word (stands_identifier (by decide)) hy
  cases isStatic with
  | false => simpa using hpublic hfunction
  | true =>
    have hstatic := scans_word (s := "static") (stands_identifier (by decide)) hfunction
    simpa using hpublic hstatic

/-! ## Parts of a file -/

variable {depth : Nat}

theorem Lays.docMarks {doc : Option (List String)}
    (h : ∀ lines ∈ doc, ∀ line ∈ lines, IsCommentLine line) (depth : Nat) :
    Lays depth (docMarks doc) ((doc.map (docText depth)).toList.map (⟨.doc, ·⟩)) := by
  cases doc with
  | none => exact .nil depth
  | some lines => exact .docComment (fun line hline => (h lines rfl line hline).unclosed) depth

/-- The tokens that a method is written with. -/
inductive Method.Written (m : Method) : List Token → Prop
  | mk {params ts : Run} {body : List Token} :
      Param.TokensOfList m.params params → IsBody m.body ts →
      body.filter (!·.isDoc) = ts.code.tokens →
      Written m (methodTokens (m.doc.map (docText 1)) m.isStatic m.name params.tokens body)

theorem Method.WellFormed.exists_lays {m : Method} (h : m.WellFormed) :
    ∃ ts, Lays 1 m.marks ts ∧ m.Written ts := by
  obtain ⟨params, hparams⟩ := Param.exists_tokensOfList fun p hp =>
    Param.readsBack_iff.2 (h.params p hp)
  obtain ⟨ts, hbody⟩ := h.body
  obtain ⟨body, hscans, herased⟩ := exists_scans_indented_lines hbody.scan hbody.strings 2
  have hcode : body.filter (!·.isDoc) = ts.code.tokens := by
    rw [← filter_code_erased, herased, filter_code_erased, Run.tokens_code]
  refine ⟨_, ?_, .mk hparams hbody hcode⟩
  have hlays := (Lays.docMarks h.doc 1).append
    (.cons (scans_signature h.name m.isStatic hparams) (.braced (.block hscans)))
  simpa [Method.marks, methodTokens, functionTokens] using hlays

theorem Lays.uses {names : List String} {g : String → List Token}
    (h : ∀ s ∈ names, Covers s.toList (g s)) (depth : Nat) :
    Lays depth (names.map fun name => .line ("use " ++ name ++ ";"))
      (names.flatMap fun s => ⟨.name, "use"⟩ :: (g s ++ [.symbol ";"])) := by
  induction names with
  | nil => exact .nil depth
  | cons s names ih =>
    rw [List.forall_mem_cons] at h
    exact .cons (scans_directive (w := "use") (by decide) h.1) (ih h.2)

/-- The tokens of a class with these tokens between its braces. -/
def Class.tokens (c : Class) (members : List Token) : List Token :=
  (c.doc.map (docText 0)).toList.map (⟨.doc, ·⟩) ++ ⟨.name, "class"⟩ :: ⟨.name, c.name⟩ ::
    (c.parent.toList.flatMap (fun parent => [⟨.name, "extends"⟩, ⟨.name, parent⟩]) ++
      .symbol "\x7b" :: (members ++ [.symbol "\x7d"]))

/-- The trait uses of a class, if there are any, and its methods. -/
def Class.parts (c : Class) : List (List Mark) :=
  let uses := c.traits.map fun name => Mark.line ("use " ++ name ++ ";")
  (if uses.isEmpty then [] else [uses]) ++ c.methods.map (·.marks)

theorem Class.WellFormed.lays_parts {c : Class} (h : c.WellFormed) {f : Method → List Token}
    (hf : ∀ m ∈ c.methods, Lays 1 m.marks (f m)) :
    Lays 1 (separated c.parts) (c.traits.flatMap useTokens ++ c.methods.flatMap f) := by
  have hmethods : List.Forall₂ (Lays 1) (c.methods.map (·.marks)) (c.methods.map f) := by
    rw [List.forall₂_map_left_iff, List.forall₂_map_right_iff, List.forall₂_same]
    exact hf
  have huses : Lays 1 (c.traits.map fun name => .line ("use " ++ name ++ ";"))
      (c.traits.flatMap useTokens) :=
    .uses (g := fun name => [⟨.name, name⟩])
      (fun name hname => (h.traits name hname).stands.covers) 1
  rw [Class.parts, List.flatMap_def (f := f)]
  cases htraits : c.traits with
  | nil => exact .separated hmethods
  | cons name traits =>
    rw [htraits] at huses
    exact .separated (.cons huses hmethods)

/-- The line that begins a class. -/
theorem Class.WellFormed.exists_line {c : Class} (h : c.WellFormed) :
    ∃ line, c.marks = Code.docMarks c.doc ++ .line line :: braced (separated c.parts) ∧
      Scans line.toList (⟨.name, "class"⟩ :: ⟨.name, c.name⟩ ::
        c.parent.toList.flatMap fun parent => [⟨.name, "extends"⟩, ⟨.name, parent⟩]) := by
  have hclass {y : List Char} {us : List Token} (hy : Scans y us) :
      Scans ("class".toList ++ ' ' :: y) (⟨.name, "class"⟩ :: us) :=
    scans_word (stands_identifier (by decide)) hy
  have hname := h.name.stands
  have hparent := h.parent
  obtain ⟨doc, name, parent, traits, methods⟩ := c
  refine ⟨_, rfl, ?_⟩
  cases parent with
  | none => simpa using hclass (hname.scans .nil)
  | some parent =>
    have hextends := scans_word (s := "extends") (stands_identifier (by decide))
      ((hparent parent rfl).stands.scans .nil)
    simpa using hclass (scans_word hname hextends)

theorem Class.WellFormed.exists_lays {c : Class} (h : c.WellFormed) :
    ∃ f : Method → List Token, (∀ m ∈ c.methods, m.Written (f m)) ∧
      Lays 0 c.marks (c.tokens (c.traits.flatMap useTokens ++ c.methods.flatMap f)) := by
  choose! f hf using fun m hm => (h.methods m hm).exists_lays
  refine ⟨f, fun m hm => (hf m hm).2, ?_⟩
  obtain ⟨line, hmarks, hline⟩ := h.exists_line
  have hparts := h.lays_parts fun m hm => (hf m hm).1
  have hlays := (Lays.docMarks h.doc 0).append (.cons hline (.braced hparts))
  rw [hmarks]
  simpa [Class.tokens] using hlays

/-- The tokens of a file with these tokens in place of its class, for the tokens of each import. -/
def ClassFile.tokens (f : ClassFile) (imported : String → List Token) (content : List Token) :
    List Token :=
  f.namespaceName.toList.flatMap (fun name => [⟨.name, "namespace"⟩, ⟨.name, name⟩, .symbol ";"]) ++
    f.imports.flatMap (fun s => ⟨.name, "use"⟩ :: (imported s ++ [.symbol ";"])) ++ content

theorem ClassFile.WellFormed.lays {f : ClassFile} (h : f.WellFormed)
    {imported : String → List Token}
    (himported : ∀ s ∈ f.imports, Covers s.toList (imported s)) {content : List Token}
    (hcontent : Lays 0 f.content.marks content) : Lays 0 f.marks (f.tokens imported content) := by
  have hopen : Lays 0 [.line "<?php", .blank] [] :=
    .cons (scans_iff.2 ⟨[], by cbv, rfl⟩) (.blank 0)
  have hheader : Lays 0 (if f.header.isEmpty then []
      else block (commentLines "/*" f.header) ++ [.blank]) [] := by
    split
    · exact .nil 0
    · exact (Lays.comment h.header 0).append (.blank 0)
  have hnamespace : ∀ name ∈ f.namespaceName, Lays 0 [.line ("namespace " ++ name ++ ";"), .blank]
      [⟨.name, "namespace"⟩, ⟨.name, name⟩, .symbol ";"] := fun name hname =>
    .cons (scans_directive (w := "namespace") (by decide)
      (h.namespaceName name hname).stands.covers) (.blank 0)
  have himports : Lays 0 (if f.imports.isEmpty then []
      else (f.imports.map fun name => Mark.line ("use " ++ name ++ ";")) ++ [.blank])
      (f.imports.flatMap fun s => ⟨.name, "use"⟩ :: (imported s ++ [.symbol ";"])) := by
    split
    · rename_i hempty
      rw [List.isEmpty_iff.1 hempty]
      exact .nil 0
    · have huses := (Lays.uses himported 0).append (.blank 0)
      rwa [List.append_nil] at huses
  have hfront := hopen.append hheader
  rw [ClassFile.marks, ClassFile.tokens]
  cases hname : f.namespaceName with
  | none => simpa using (hfront.append himports).append hcontent
  | some name =>
    simpa using ((hfront.append (hnamespace name hname)).append himports).append hcontent

/-! ## What is read -/

/-- Lines without the blanks at their ends, and without the empty lines around them. -/
def trimmedLines (lines : List String) : List String :=
  let trimmed := lines.map fun line => String.ofList (line.toList.rdropWhile Text.isBlank)
  (trimmed.dropWhile (· == "")).rdropWhile (· == "")

/-- A method that is read where `m` was written. -/
structure Method.IsReadAs (m : Method) (d : MethodDecl) : Prop where
  name : d.name = m.name
  isStatic : d.isStatic = m.isStatic
  params : d.params = m.params
  doc : d.doc.map (fun raw => (DocComment.read raw).lines) = m.doc.map trimmedLines
  body : ∃ ts statements, CurryGen.scan ("\n".intercalate m.body).toList = .ok ts ∧
    d.body = some statements ∧
      statements.flatMap (·.tokens.tokens) = ts.tokens.filter (·.kind != .doc)

/-- The tokens of the statements that are read are those of the body's lines. -/
theorem Method.IsReadAs.flatMap_tokens {m : Method} {d : MethodDecl} (h : m.IsReadAs d) {ts : Run}
    (hscan : CurryGen.scan ("\n".intercalate m.body).toList = .ok ts) :
    d.statements.flatMap (·.tokens.tokens) = ts.tokens.filter (·.kind != .doc) := by
  obtain ⟨ts', statements, hscan', hbody, htokens⟩ := h.body
  obtain rfl := Except.ok.inj (hscan.symm.trans hscan')
  rw [MethodDecl.statements, hbody]
  exact htokens

theorem read_docText_lines {lines : List String} (h : ∀ line ∈ lines, IsCommentLine line)
    (depth : Nat) : (DocComment.read (docText depth lines)).lines = trimmedLines lines := by
  rw [DocComment.read_docText h depth]
  rfl

theorem IsBody.balanced_of_code {lines : List String} {run : Run} (h : IsBody lines run)
    (hcode : ts.filter (!·.isDoc) = run.code.tokens) : Token.balanced 0 ts = true := by
  rw [← balanced_filter_code, hcode, Run.tokens_code, balanced_filter_code]
  exact h.balanced

theorem Method.Written.balanced {m : Method} (h : m.Written ts) : Token.balanced 0 ts = true := by
  cases h with
  | mk hparams hbody hcode =>
    exact balanced_methodTokens hparams.balanced (hbody.balanced_of_code hcode) _ _ _

variable {ctx : Context} {after : Nat}

/-- A method is read from the tokens it is written with. -/
theorem Method.Written.readMembers {m : Method} (h : m.Written ts)
    (hdoc : ∀ lines ∈ m.doc, ∀ line ∈ lines, IsCommentLine line) {run : Run} {more : List Token}
    (hrun : run.tokens = ts ++ more) (hafter : after ≤ more.length) :
    ∃ d rest, m.IsReadAs d ∧ Run.tokens rest = more ∧
      Declaration.readMembers ctx after none [] run =
        (Declaration.readMembers ctx after none [] rest).map (d :: ·) := by
  cases h with
  | @mk params ts body hparams hbody hcode =>
    obtain ⟨inner, block, rest, hinner, hblock, hrest, heq⟩ :=
      readMembers_method hparams.balanced (hbody.balanced_of_code hcode) hafter _ _ hrun
    refine ⟨_, rest, ⟨rfl, ?_, ?_, ?_, ?_⟩, hrest, heq⟩
    · cases m.isStatic <;> rfl
    · exact (Param.listOfRun_congr hinner).trans hparams.read
    · cases hlines : m.doc with
      | none => rfl
      | some lines => exact congrArg some (read_docText_lines (hdoc lines hlines) 1)
    · refine ⟨ts, _, hbody.scan, rfl, ?_⟩
      rw [Statement.flatMap_tokens_readStatements, Run.tokens_code, hblock, hcode, Run.tokens_code]
      rfl

theorem readMembers_methods {ms : List Method} {f : Method → List Token}
    (hms : ∀ m ∈ ms, m.WellFormed ∧ m.Written (f m)) {run : Run} {more : List Token}
    (hrun : run.tokens = ms.flatMap f ++ more) :
    ∃ ds, List.Forall₂ Method.IsReadAs ms ds ∧
      Declaration.readMembers ctx more.length none [] run = .ok ds := by
  induction ms generalizing run with
  | nil =>
    have hlength := congrArg List.length hrun
    rw [Run.tokens, List.length_map] at hlength
    have hlength : run.length ≤ more.length := Nat.le_of_eq hlength
    exact ⟨[], .nil, by rw [readMembers.eq_def, if_pos hlength]⟩
  | cons m ms ih =>
    rw [List.forall_mem_cons] at hms
    rw [List.flatMap_cons, List.append_assoc] at hrun
    obtain ⟨d, rest, hd, hrest, heq⟩ := hms.1.2.readMembers hms.1.1.doc hrun
      (Nat.le_trans (Nat.le_add_left more.length _) (Nat.le_of_eq List.length_append.symm))
    obtain ⟨ds, hds, hread⟩ := ih hms.2 hrest
    exact ⟨d :: ds, .cons hd hds, by rw [heq, hread]; rfl⟩

theorem readMembers_uses {traits : List String} {run : Run} {more : List Token}
    (hrun : run.tokens = traits.flatMap useTokens ++ more) (hafter : after ≤ more.length) :
    ∃ rest : Run, rest.tokens = more ∧ Declaration.readMembers ctx after none [] run =
      Declaration.readMembers ctx after none [] rest := by
  induction traits generalizing run with
  | nil => exact ⟨run, hrun, rfl⟩
  | cons name traits ih =>
    rw [List.flatMap_cons, List.append_assoc] at hrun
    obtain ⟨rest, hrest, heq⟩ := readMembers_use hrun
      (Nat.le_trans hafter (by rw [List.length_append]; omega))
    obtain ⟨rest', hrest', heq'⟩ := ih hrest
    exact ⟨rest', hrest', heq.trans heq'⟩

/-- The members of a class are read from the tokens they are written with. -/
theorem Class.WellFormed.readMembers {c : Class} (hc : c.WellFormed) {f : Method → List Token}
    (hf : ∀ m ∈ c.methods, m.Written (f m)) {members : Run}
    (hmembers : members.tokens = c.traits.flatMap useTokens ++ c.methods.flatMap f) (i : Nat) :
    ∃ ds, List.Forall₂ Method.IsReadAs c.methods ds ∧
      Declaration.readMembers ctx 1 none [] (members ++ [⟨.symbol "\x7d", i⟩]) = .ok ds := by
  have htokens : Run.tokens (members ++ [⟨.symbol "\x7d", i⟩]) =
      c.traits.flatMap useTokens ++ (c.methods.flatMap f ++ [.symbol "\x7d"]) := by
    rw [Run.tokens_append, hmembers, List.append_assoc]
    rfl
  have hafter : 1 ≤ (c.methods.flatMap f ++ [Token.symbol "\x7d"]).length := by
    rw [List.length_append]
    exact Nat.le_add_left 1 _
  obtain ⟨rest, hrest, huses⟩ := readMembers_uses htokens hafter
  obtain ⟨ds, hds, hmethods⟩ :=
    readMembers_methods (fun m hm => ⟨hc.methods m hm, hf m hm⟩) hrest
  exact ⟨ds, hds, huses.trans hmethods⟩

/-- A class that ends a file is read from the tokens it is written with. -/
theorem Class.WellFormed.readFile {c : Class} (hc : c.WellFormed) {f : Method → List Token}
    (hf : ∀ m ∈ c.methods, m.Written (f m)) {run : Run}
    (hrun : run.tokens = c.tokens (c.traits.flatMap useTokens ++ c.methods.flatMap f)) :
    ∃ d : ClassDecl, d.kind = .regular ∧ d.name = c.name ∧
      List.Forall₂ Method.IsReadAs c.methods d.methods ∧
      Declaration.readFile ctx false run = .ok { classes := [d] } := by
  obtain ⟨comment, ts, rfl, hcomment, h₁⟩ := Run.exists_append_of_tokens hrun
  obtain ⟨i, ts, rfl, h₂⟩ := Run.exists_cons_of_tokens h₁
  obtain ⟨j, ts, rfl, h₃⟩ := Run.exists_cons_of_tokens h₂
  obtain ⟨parent, ts, rfl, hparent, h₄⟩ := Run.exists_append_of_tokens h₃
  obtain ⟨k, ts, rfl, h₅⟩ := Run.exists_cons_of_tokens h₄
  obtain ⟨members, ts, rfl, hmembers, h₆⟩ := Run.exists_append_of_tokens h₅
  obtain ⟨l, ts, rfl, h₇⟩ := Run.exists_cons_of_tokens h₆
  obtain rfl := List.map_eq_nil_iff.1 h₇
  obtain ⟨ds, hds, hread⟩ := hc.readMembers hf hmembers l
  have hbalanced : balanced 0 members.tokens = true := by
    rw [hmembers, balanced_append (balanced_flatMap fun name _ => rfl) 0]
    exact balanced_flatMap fun m hm => (hf m hm).balanced
  have hopen : ∀ t ∈ parent, t.isSymbol "\x7b" = false := by
    refine Run.forall_of_tokens (P := (·.isSymbol "\x7b" = false)) hparent fun t ht => ?_
    obtain ⟨name, -, ht⟩ := List.mem_flatMap.1 ht
    rcases List.mem_pair.1 ht with rfl | rfl <;> rfl
  refine ⟨⟨.regular, c.name, ds⟩, rfl, rfl, hds, ?_⟩
  have hclass : readClass ctx .regular ⟨⟨.name, "class"⟩, i⟩ (⟨⟨.name, c.name⟩, j⟩ ::
      (parent ++ ⟨.symbol "\x7b", k⟩ :: (members ++ [⟨.symbol "\x7d", l⟩]))) =
      .ok (⟨.regular, c.name, ds⟩, []) :=
    readClass_eq _ rfl hopen rfl rfl hbalanced hread
  have hfile := readFile_regular rfl hclass
  rw [← hfile]
  cases hdoc : c.doc with
  | none =>
    rw [hdoc] at hcomment
    rw [List.map_eq_nil_iff.1 hcomment]
    rfl
  | some lines =>
    rw [hdoc] at hcomment
    obtain ⟨m, comment, rfl, hnil⟩ := Run.exists_cons_of_tokens hcomment
    obtain rfl := List.map_eq_nil_iff.1 hnil
    exact readFile_doc false rfl

theorem readFile_imports {imports : List String} {imported : String → List Token}
    (himported : ∀ s ∈ imports, Token.format (imported s) = s ∧
      ∀ t ∈ imported s, t.isSymbol ";" = false) {content : List Token} {run : Run}
    (hrun : run.tokens =
      imports.flatMap (fun s => ⟨.name, "use"⟩ :: (imported s ++ [.symbol ";"])) ++ content) :
    ∃ rest : Run, rest.tokens = content ∧ ∀ classes,
      Declaration.readFile ctx false rest = .ok { classes } →
      Declaration.readFile ctx false run = .ok { imports, classes } := by
  induction imports generalizing run with
  | nil => exact ⟨run, hrun, fun _ => id⟩
  | cons s imports ih =>
    rw [List.forall_mem_cons] at himported
    rw [List.flatMap_cons, List.append_assoc, List.cons_append, List.append_assoc] at hrun
    obtain ⟨i, ts, rfl, h₁⟩ := Run.exists_cons_of_tokens hrun
    obtain ⟨name, ts, rfl, hname, h₂⟩ := Run.exists_append_of_tokens h₁
    obtain ⟨j, ts, rfl, h₃⟩ := Run.exists_cons_of_tokens h₂
    obtain ⟨rest, hrest, hread⟩ := ih himported.2 h₃
    have hends : ∀ t ∈ name, t.isSymbol ";" = false :=
      Run.forall_of_tokens hname himported.1.2
    have hformat : name.format = s := by rw [Run.format, hname, himported.1.1]
    refine ⟨rest, hrest, fun classes hclasses => ?_⟩
    rw [readFile_use false hends i j (hread classes hclasses), hformat]

variable (ctx) in
/-- What stands before the class of a file is read from the tokens it is written with. -/
theorem ClassFile.WellFormed.readFile {f : ClassFile} (hf : f.WellFormed)
    {imported : String → List Token}
    (himported : ∀ s ∈ f.imports, Token.format (imported s) = s ∧
      ∀ t ∈ imported s, t.isSymbol ";" = false) {content : List Token} {run : Run}
    (hrun : run.tokens = f.tokens imported content) :
    ∃ rest : Run, rest.tokens = content ∧ ∀ classes,
      Declaration.readFile ctx false rest = .ok { classes } →
      Declaration.readFile ctx false run =
        .ok { namespaceName := f.namespaceName, imports := f.imports, classes } := by
  rw [ClassFile.tokens] at hrun
  cases hname : f.namespaceName with
  | none =>
    rw [hname] at hrun
    exact readFile_imports himported hrun
  | some name =>
    rw [hname] at hrun
    obtain ⟨i, ts, rfl, h₁⟩ := Run.exists_cons_of_tokens hrun
    obtain ⟨j, ts, rfl, h₂⟩ := Run.exists_cons_of_tokens h₁
    obtain ⟨k, ts, rfl, h₃⟩ := Run.exists_cons_of_tokens h₂
    obtain ⟨rest, hrest, hread⟩ := readFile_imports himported h₃
    refine ⟨rest, hrest, fun classes hclasses => ?_⟩
    rw [readFile_namespace false (hf.namespaceName name hname).ne_empty i j k
      (hread classes hclasses)]
    rfl

/-! ## Files -/

namespace ClassFile

/-- **A class file whose parts are well formed is read as what was written**: its namespace, its
imports and one class, whose methods are the given ones in order. -/
theorem read_render {f : ClassFile} (h : f.WellFormed) (path : Path) :
    ∃ c : ClassDecl, SourceFile.read path f.render = .ok
        { namespaceName := f.namespaceName, imports := f.imports, classes := [c] } ∧
      c.kind = .regular ∧ c.name = f.content.name ∧
      List.Forall₂ Method.IsReadAs f.content.methods c.methods := by
  choose! imported himported using fun s hs => (h.imports s hs).exists_covers
  obtain ⟨tokens, htokens, hcontent⟩ := h.content.exists_lays
  have hlays := h.lays (fun s hs => (himported s hs).1) hcontent
  obtain ⟨run, hscan, hrun⟩ := scans_iff.1 hlays.scans_layout
  obtain ⟨rest, hrest, hread⟩ := h.readFile ⟨f.render.toList, (run.getLast?.map (·.start)).getD 0⟩
    (fun s hs => (himported s hs).2) hrun
  obtain ⟨c, hkind, hname, hmethods, hclass⟩ := h.content.readFile htokens hrest
  refine ⟨c, ?_, hkind, hname, hmethods⟩
  rw [SourceFile.read, Run.read, render, hscan]
  simp only
  rw [← render, hread _ hclass]

/-- A documented static method, with a documentation comment over two lines in its body. -/
def identityMethod : Method where
  doc := some ["", "Its argument. ", "", "@param mixed $x\t", "", ""]
  isStatic := true
  name := "id"
  params := [{ name := "x" }]
  body := ["/** nothing", "to do */", "return $x;"]

/-- A method whose body has a block. -/
def branchingMethod : Method where
  name := "run"
  body := ["if ($this->x) \x7b", "    echo 'a;b';", "\x7d"]

/-- A class with the two methods. -/
def library : ClassFile where
  header := ["Generated.", ""]
  namespaceName := some "Fn"
  imports := ["Closure"]
  content :=
    { doc := some ["Functions."]
      name := "P"
      parent := some "Base"
      traits := ["Currying"]
      methods := [identityMethod, branchingMethod] }

theorem isBody_identityMethod : IsBody identityMethod.body
    [⟨⟨.doc, "/** nothing\nto do */"⟩, 0⟩, ⟨⟨.name, "return"⟩, 21⟩, ⟨⟨.variable, "$x"⟩, 28⟩,
      ⟨.symbol ";", 30⟩] :=
  ⟨by cbv, rfl, by decide +kernel⟩

theorem isBody_branchingMethod : IsBody branchingMethod.body
    [⟨⟨.name, "if"⟩, 0⟩, ⟨.symbol "(", 3⟩, ⟨⟨.variable, "$this"⟩, 4⟩, ⟨.symbol "->", 9⟩,
      ⟨⟨.name, "x"⟩, 11⟩, ⟨.symbol ")", 12⟩, ⟨.symbol "\x7b", 14⟩, ⟨⟨.name, "echo"⟩, 20⟩,
      ⟨⟨.string, "'a;b'"⟩, 25⟩, ⟨.symbol ";", 30⟩, ⟨.symbol "\x7d", 32⟩] :=
  ⟨by cbv, rfl, by decide +kernel⟩

theorem wellFormed_library : library.WellFormed where
  header := by decide +kernel
  namespaceName name h := by
    cases h
    exact isName_of_isIdentifier (by decide)
  imports := List.forall_mem_singleton.2 ⟨[⟨⟨.name, "Closure"⟩, 0⟩], by cbv, by cbv, by decide⟩
  content :=
    { doc := by decide +kernel
      name := isName_of_isIdentifier (by decide)
      parent := fun name h => by
        cases h
        exact isName_of_isIdentifier (by decide)
      traits := List.forall_mem_singleton.2 (isName_of_isIdentifier (by decide))
      methods := by
        refine List.forall_mem_cons.2 ⟨?_, List.forall_mem_singleton.2 ?_⟩
        · exact
            { doc := by decide +kernel
              name := isName_of_isIdentifier (by decide)
              params := List.forall_mem_singleton.2
                ⟨[⟨⟨.variable, "$x"⟩, 0⟩], by cbv, rfl, by cbv⟩
              body := ⟨_, isBody_identityMethod⟩ }
        · exact
            { doc := fun _ h => by cases h
              name := isName_of_isIdentifier (by decide)
              params := List.forall_mem_nil _
              body := ⟨_, isBody_branchingMethod⟩ } }

/-- The comment is read without the empty lines around it and the blanks at the ends of its lines. -/
theorem read_render_library :
    library.WellFormed ∧ ∃ c : ClassDecl, SourceFile.read ⟨"P.php"⟩ library.render = .ok
        { namespaceName := some "Fn", imports := ["Closure"], classes := [c] } ∧
      c.kind = .regular ∧ c.name = "P" ∧
      List.Forall₂ Method.IsReadAs library.content.methods c.methods ∧
      ∃ identity branching, c.methods = [identity, branching] ∧
        identity.name = "id" ∧ identity.isStatic = true ∧ identity.params = [{ name := "x" }] ∧
        identity.doc.map (fun raw => (DocComment.read raw).lines) =
          some ["Its argument.", "", "@param mixed $x"] ∧
        identity.statements.flatMap (·.tokens.tokens) =
          [⟨.name, "return"⟩, ⟨.variable, "$x"⟩, .symbol ";"] ∧
        branching.name = "run" ∧ branching.isStatic = false ∧ branching.params = [] ∧
        branching.doc = none ∧
        branching.statements.flatMap (·.tokens.tokens) =
          [⟨.name, "if"⟩, .symbol "(", ⟨.variable, "$this"⟩, .symbol "->", ⟨.name, "x"⟩, .symbol ")",
            .symbol "\x7b", ⟨.name, "echo"⟩, ⟨.string, "'a;b'"⟩, .symbol ";", .symbol "\x7d"] := by
  obtain ⟨c, hread, hkind, hname, hmethods⟩ := read_render wellFormed_library ⟨"P.php"⟩
  refine ⟨wellFormed_library, c, hread, hkind, hname, hmethods, ?_⟩
  obtain ⟨identity, rest, hidentity, hrest, hc⟩ := List.forall₂_cons_left_iff.1 hmethods
  obtain ⟨branching, rest, hbranching, hnil, rfl⟩ := List.forall₂_cons_left_iff.1 hrest
  obtain rfl := List.forall₂_nil_left_iff.1 hnil
  have hdoc : trimmedLines ["", "Its argument. ", "", "@param mixed $x\t", "", ""] =
      ["Its argument.", "", "@param mixed $x"] := by decide +kernel
  refine ⟨identity, branching, hc, hidentity.name, hidentity.isStatic, hidentity.params,
    hidentity.doc.trans (congrArg some hdoc),
    hidentity.flatMap_tokens isBody_identityMethod.scan,
    hbranching.name, hbranching.isStatic, hbranching.params,
    Option.map_eq_none_iff.1 hbranching.doc,
    hbranching.flatMap_tokens isBody_branchingMethod.scan⟩

end ClassFile

end CurryGen.Code

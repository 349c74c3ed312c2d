import Mathlib.Data.List.Forall2
import CurryGen.ClassName
import CurryGen.Code.ClassFile
import CurryGen.Proofs.Token.Written

/-!
# Class names in generated files

Where a generated file uses class names, and what they stand for.

* `Token.classUses`: the uses in code, each of which is seen from two neighbouring tokens.
* `Code.ClassFile.classUses?`: the uses in a file. There are none to tell of if a body is not code.
* `Code.ClassFile.resolve`: what a name without backslashes stands for in a file.
* `Scan.Spells`: a text is code with given uses. The steps put one thing after another in front.
-/

namespace CurryGen

/-- Where a class name is used. -/
inductive ClassPlace where
  /-- After `extends`. -/
  | parent
  /-- In the `use` of a trait. -/
  | trait
  /-- After `new`. -/
  | construction
  /-- After `instanceof`. -/
  | test
  /-- Before `::`. -/
  | scope
deriving DecidableEq, Repr

structure ClassUse where
  place : ClassPlace
  name : String
deriving DecidableEq, Repr

namespace Token

/-- The use of a class name that two neighbouring tokens make. -/
def classUse? (t u : Token) : Option ClassUse :=
  if u.isSymbol "::" then
    if t.kind = .name then some ⟨.scope, t.text⟩ else none
  else if u.kind = .name then
    if t.isKeyword "new" then some ⟨.construction, u.text⟩
    else if t.isKeyword "instanceof" then some ⟨.test, u.text⟩
    else none
  else none

/-- The uses of class names in code. -/
def classUses : List Token → List ClassUse
  | t :: u :: ts => (classUse? t u).toList ++ classUses (u :: ts)
  | _ => []

variable {t u : Token} {ts us : List Token}

/-- Only a name begins a use. -/
theorem classUse?_of_kind (h : t.kind ≠ .name) (u : Token) : classUse? t u = none := by
  have hkeyword (word : String) : t.isKeyword word = false := by
    simp [isKeyword, isKeywordIn, h]
  simp [classUse?, h, hkeyword]

theorem kind_symbol (s : String) : (Token.symbol s).kind ≠ .name := by simp [Token.symbol]

/-- Before a symbol other than `::` no class name is used. -/
theorem classUse?_symbol {s : String} (h : s ≠ "::") (t : Token) :
    classUse? t (.symbol s) = none := by
  simp [classUse?, isSymbol, Token.symbol, h]

theorem classUse?_new (name : String) :
    classUse? ⟨.name, "new"⟩ ⟨.name, name⟩ = some ⟨.construction, name⟩ := by
  have hnew : isKeyword "new" ⟨.name, "new"⟩ = true := by decide +kernel
  simp [classUse?, isSymbol, hnew]

theorem classUse?_instanceof (name : String) :
    classUse? ⟨.name, "instanceof"⟩ ⟨.name, name⟩ = some ⟨.test, name⟩ := by
  have hnew : isKeyword "new" ⟨.name, "instanceof"⟩ = false := by decide +kernel
  have hinstanceof : isKeyword "instanceof" ⟨.name, "instanceof"⟩ = true := by decide +kernel
  simp [classUse?, isSymbol, hnew, hinstanceof]

theorem classUses_cons_of_kind (h : t.kind ≠ .name) (ts : List Token) :
    classUses (t :: ts) = classUses ts := by
  cases ts with
  | nil => rfl
  | cons u ts => rw [classUses, classUse?_of_kind h]; rfl

theorem forall_mem_getLast?_cons {P : Token → Prop} (ht : P t) (h : ∀ u ∈ us.getLast?, P u) :
    ∀ u ∈ (t :: us).getLast?, P u := by
  cases us with
  | nil =>
    intro u hu
    cases hu
    exact ht
  | cons u us => rwa [List.getLast?_cons_cons]

theorem forall_mem_getLast?_append {P : Token → Prop} (ht : ∀ t ∈ ts.getLast?, P t)
    (h : ∀ u ∈ us.getLast?, P u) : ∀ u ∈ (ts ++ us).getLast?, P u := by
  intro u hu
  rw [List.getLast?_append] at hu
  cases hlast : us.getLast? with
  | none =>
    rw [hlast] at hu
    exact ht u hu
  | some v =>
    rw [hlast] at hu
    cases hu
    exact h u hlast

theorem classUses_append_of_kind (h : ∀ t ∈ ts.getLast?, t.kind ≠ .name) (us : List Token) :
    classUses (ts ++ us) = classUses ts ++ classUses us := by
  induction ts with
  | nil => rfl
  | cons t ts ih =>
    cases ts with
    | nil => exact classUses_cons_of_kind (h t rfl) us
    | cons u ts =>
      rw [List.getLast?_cons_cons] at h
      rw [List.cons_append, List.cons_append, classUses, ← List.cons_append, ih h, classUses,
        List.append_assoc]

end Token

namespace Code

/-- The uses of class names in the body of a method, if the body is code. -/
def Method.classUses? (m : Method) : Option (List ClassUse) :=
  (CurryGen.scan ("\n".intercalate m.body).toList).toOption.map fun ts =>
    Token.classUses ts.code.tokens

/-- The name that an import gives, and the class that it stands for. -/
def importBinding (imported : String) : String × String :=
  match Text.splitAt ' ' imported with
  | [name, "as", shown] => (shown, name)
  | _ => (shortName imported, imported)

namespace ClassFile

/-- The uses of class names in a file, if its methods are code. -/
def classUses? (f : ClassFile) : Option (List ClassUse) := do
  let inMethods ← f.content.methods.mapM Method.classUses?
  return f.content.parent.toList.map (⟨.parent, ·⟩) ++ f.content.traits.map (⟨.trait, ·⟩) ++
    inMethods.flatten

/-- The class of this name in the file's namespace. -/
def inNamespace (f : ClassFile) (name : String) : String :=
  match f.namespaceName with
  | some ns => ns ++ "\\" ++ name
  | none => name

/-- The class that a name without backslashes stands for: that of the first import which gives the
name, and else the one of this name in the file's namespace. Names are the same when `fold` makes
them the same. -/
def resolve (fold : String → String) (f : ClassFile) (name : String) : String :=
  match (f.imports.map importBinding).find? fun b => fold b.1 = fold name with
  | some b => b.2
  | none => f.inNamespace name

end ClassFile

end Code

/-! ## Spelling code out -/

namespace Scan

/-- The text is code with these uses of class names, and with no name at its end. -/
def Spells (y : List Char) (cs : List ClassUse) : Prop :=
  ∃ us, Scans y us ∧ (∀ u ∈ us, u.isDoc = false) ∧ (∀ u ∈ us.getLast?, u.kind ≠ .name) ∧
    Token.classUses us = cs

namespace Spells

variable {y : List Char} {cs : List ClassUse}

theorem nil : Spells [] [] := ⟨[], .nil, by simp, by simp, rfl⟩

theorem space (h : Spells y cs) : Spells (' ' :: y) cs := by
  obtain ⟨us, hscans, hrest⟩ := h
  exact ⟨us, .space rfl hscans, hrest⟩

/-- A token that is no name, in front. -/
theorem cons_token {t : Token} (ht : Stands t y) (hdoc : t.isDoc = false) (hkind : t.kind ≠ .name)
    (h : Spells y cs) : Spells (t.text.toList ++ y) cs := by
  obtain ⟨us, hscans, hcode, hend, rfl⟩ := h
  exact ⟨t :: us, ht.scans hscans, List.forall_mem_cons.2 ⟨hdoc, hcode⟩,
    Token.forall_mem_getLast?_cons hkind hend, Token.classUses_cons_of_kind hkind us⟩

theorem symbol {s : String} (hs : s ∈ solitary) (h : Spells y cs) : Spells (s.toList ++ y) cs :=
  h.cons_token (stands_solitary hs y) rfl nofun

theorem «variable» {v : String} (hv : Stands ⟨.variable, v⟩ []) {d : Char} (hd : isStop d = true)
    (h : Spells (d :: y) cs) : Spells (v.toList ++ d :: y) cs :=
  h.cons_token (hv.append_stop nofun hd y) rfl nofun

theorem head?_of_solitary : ∀ s ∈ solitary, ∃ d w, s.toList = d :: w ∧ isStop d = true := by
  intro s hs
  have hstop : ∀ s ∈ solitary, s.toList.head?.any isStop = true := by decide
  obtain ⟨d, hd, hisStop⟩ := (Option.any_eq_true _ _).1 (hstop s hs)
  obtain ⟨w, hw⟩ := List.head?_eq_some_iff.1 hd
  exact ⟨d, w, hw, hisStop⟩

/-- A name in front of a symbol. -/
theorem name_symbol {w s : String} (hw : Stands ⟨.name, w⟩ []) (hs : s ∈ solitary)
    (h : Spells y cs) : Spells (w.toList ++ (s.toList ++ y))
      ((Token.classUse? ⟨.name, w⟩ (.symbol s)).toList ++ cs) := by
  obtain ⟨d, rest, hd, hstop⟩ := head?_of_solitary s hs
  obtain ⟨us, hscans, hcode, hend, rfl⟩ := h
  have hsymbol := scans_symbol hs hscans
  rw [hd, List.cons_append] at hsymbol ⊢
  refine ⟨_, hw.scans_before nofun hstop hsymbol, ?_, ?_, ?_⟩
  · exact List.forall_mem_cons.2 ⟨rfl, List.forall_mem_cons.2 ⟨rfl, hcode⟩⟩
  · rw [List.getLast?_cons_cons]
    exact Token.forall_mem_getLast?_cons (Token.kind_symbol s) hend
  · rw [Token.classUses, Token.classUses_cons_of_kind (Token.kind_symbol s)]

/-- A name in front of a symbol other than `::` is no class name of itself. -/
theorem name {w s : String} (hw : Stands ⟨.name, w⟩ []) (hs : s ∈ solitary) (hne : s ≠ "::")
    (h : Spells y cs) : Spells (w.toList ++ (s.toList ++ y)) cs := by
  have hname := h.name_symbol hw hs
  rwa [Token.classUse?_symbol hne] at hname

/-- A class name in front of `::`. -/
theorem scope {w : String} (hw : Stands ⟨.name, w⟩ []) (h : Spells y cs) :
    Spells (w.toList ++ ("::".toList ++ y)) (⟨.scope, w⟩ :: cs) :=
  h.name_symbol hw (by decide)

/-- A name and a symbol other than `::` with a space between them. -/
theorem name_space {w s : String} (hw : Stands ⟨.name, w⟩ []) (hs : s ∈ solitary) (hne : s ≠ "::")
    (h : Spells y cs) : Spells (w.toList ++ ' ' :: (s.toList ++ y)) cs := by
  obtain ⟨us, hscans, hcode, hend, rfl⟩ := h
  have hsymbol := scans_symbol hs hscans
  refine ⟨_, hw.scans_before nofun (by decide) (.space rfl hsymbol), ?_, ?_, ?_⟩
  · exact List.forall_mem_cons.2 ⟨rfl, List.forall_mem_cons.2 ⟨rfl, hcode⟩⟩
  · rw [List.getLast?_cons_cons]
    exact Token.forall_mem_getLast?_cons (Token.kind_symbol s) hend
  · rw [Token.classUses, Token.classUse?_symbol hne,
      Token.classUses_cons_of_kind (Token.kind_symbol s)]
    rfl

/-- A class name between a keyword and a symbol. -/
theorem keyword {k w s : String} (hk : isIdentifier k = true) (hw : Stands ⟨.name, w⟩ [])
    (hs : s ∈ solitary) (hne : s ≠ "::") (h : Spells y cs) :
    Spells (k.toList ++ ' ' :: (w.toList ++ (s.toList ++ y)))
      ((Token.classUse? ⟨.name, k⟩ ⟨.name, w⟩).toList ++ cs) := by
  obtain ⟨d, rest, hd, hstop⟩ := head?_of_solitary s hs
  obtain ⟨us, hscans, hcode, hend, rfl⟩ := h
  have hsymbol := scans_symbol hs hscans
  rw [hd, List.cons_append] at hsymbol ⊢
  have hclass := hw.scans_before nofun hstop hsymbol
  refine ⟨_, (stands_identifier hk).scans_before nofun (by decide) (.space rfl hclass), ?_, ?_, ?_⟩
  · simpa [Token.isDoc, Token.symbol] using hcode
  · rw [List.getLast?_cons_cons, List.getLast?_cons_cons]
    exact Token.forall_mem_getLast?_cons (Token.kind_symbol s) hend
  · rw [Token.classUses, Token.classUses, Token.classUse?_symbol hne,
      Token.classUses_cons_of_kind (Token.kind_symbol s)]
    rfl

/-- Code without names, in front of a separator. -/
theorem covered {u : List Char} {ts : List Token} (hu : Covers u ts)
    (hts : ∀ t ∈ ts, t.kind = .variable ∨ t.kind = .symbol) {d : Char} (hd : separates d = true)
    (h : Spells (d :: y) cs) : Spells (u ++ d :: y) cs := by
  obtain ⟨us, hscans, hcode, hend, rfl⟩ := h
  have hkind : ∀ t ∈ ts, t.kind ≠ .name := fun t ht hname => by
    rcases hts t ht with h | h <;> rw [hname] at h <;> cases h
  refine ⟨_, hu.append_separator hd hscans, ?_, ?_, ?_⟩
  · refine List.forall_mem_append.2 ⟨fun t ht => ?_, hcode⟩
    rcases hts t ht with h | h <;> rw [Token.isDoc, h] <;> rfl
  · exact Token.forall_mem_getLast?_append (fun t ht => hkind t (List.mem_of_getLast? ht)) hend
  · clear hu hscans hend
    induction ts with
    | nil => rfl
    | cons t ts ih =>
      rw [List.forall_mem_cons] at hts hkind
      rw [List.cons_append, Token.classUses_cons_of_kind hkind.1, ih hts.2 hkind.2]

theorem append_newline {v : List Char} {ds : List ClassUse} (h : Spells y cs) (hv : Spells v ds) :
    Spells (y ++ '\n' :: v) (cs ++ ds) := by
  obtain ⟨us, hscans, hcode, hend, rfl⟩ := h
  obtain ⟨vs, hscansv, hcodev, hendv, rfl⟩ := hv
  exact ⟨us ++ vs, hscans.append_newline hscansv, List.forall_mem_append.2 ⟨hcode, hcodev⟩,
    Token.forall_mem_getLast?_append hend hendv, Token.classUses_append_of_kind hend vs⟩

/-- Lines that are code each are code together. -/
theorem lines {lines : List String} {uses : List (List ClassUse)}
    (h : List.Forall₂ (fun line us => Spells line.toList us) lines uses) :
    Spells ("\n".intercalate lines).toList uses.flatten := by
  induction h with
  | nil => exact .nil
  | @cons line us lines uses hline hlines ih =>
    cases lines with
    | nil =>
      cases hlines
      simpa using hline
    | cons next lines =>
      have hall := hline.append_newline ih
      rw [String.toList_intercalate] at hall ⊢
      simpa [List.intercalate_cons_cons] using hall

end Spells

end Scan

namespace Code

/-- The uses of class names in a method whose lines are code. -/
theorem Method.classUses?_eq {m : Method} {uses : List (List ClassUse)}
    (h : List.Forall₂ (fun line us => Scan.Spells line.toList us) m.body uses) :
    m.classUses? = some uses.flatten := by
  obtain ⟨us, hscans, hcode, -, huses⟩ := Scan.Spells.lines h
  obtain ⟨ts, hscan, rfl⟩ := Scan.scans_iff.1 hscans
  have htokens : ts.code.tokens = ts.tokens := by
    rw [Run.tokens_code, List.filter_eq_self]
    exact fun u hu => by rw [hcode u hu]; rfl
  rw [classUses?, hscan, ← huses, ← htokens]
  rfl

/-- If the methods of a file are code, its uses are those of its class and of its methods. -/
theorem ClassFile.exists_classUses? {f : ClassFile}
    (h : ∀ m ∈ f.content.methods, ∃ us, m.classUses? = some us) :
    ∃ us, f.classUses? = some us ∧ ∀ u, u ∈ us ↔
      (∃ name ∈ f.content.parent, u = ⟨.parent, name⟩) ∨
      (∃ name ∈ f.content.traits, u = ⟨.trait, name⟩) ∨
      ∃ m ∈ f.content.methods, ∃ vs, m.classUses? = some vs ∧ u ∈ vs := by
  choose! g hg using h
  have hmethods : f.content.methods.mapM Method.classUses? = some (f.content.methods.map g) := by
    generalize f.content.methods = ms at hg
    induction ms with
    | nil => rfl
    | cons m ms ih =>
      obtain ⟨hm, hms⟩ := List.forall_mem_cons.1 hg
      rw [List.mapM_cons, hm, ih hms]
      rfl
  refine ⟨_, by rw [classUses?, hmethods]; rfl, fun u => ?_⟩
  have hinMethods : u ∈ (f.content.methods.map g).flatten ↔
      ∃ m ∈ f.content.methods, ∃ vs, m.classUses? = some vs ∧ u ∈ vs := by
    rw [← List.flatMap_def, List.mem_flatMap]
    refine exists_congr fun m => and_congr_right fun hm => ?_
    rw [hg m hm]
    simp
  simp only [List.mem_append, hinMethods, List.mem_map, Option.mem_toList, Option.mem_def, or_assoc,
    eq_comm]

end Code

end CurryGen

import CurryGen.Proofs.Token.Woven
import CurryGen.Proofs.Tree.Shape
import CurryGen.Tree.Print

/-!
# What is printed

Printing copies strings and puts names, variables and tokens together with spaces, brackets and
operators of its own. What holds of all those, and of two texts with such a mark between them, holds
of a printed expression or statement.

* `Print.Closed S q W`: printing what is read from a run with `S` gives texts with `W`.
* `Print.Closed.readExpr`: so it is with expressions, by induction on the length of the run.
* `Print.Closed.expr`, `Print.Closed.stmt`: and with all that is read from such a run.
* `Supplies.closed`: printed code is made of plain parts and of pieces that its tokens supply, and of
  the class name that calls are qualified with.
-/

namespace CurryGen

open Code

namespace Print

/-! ## Texts that printing adds -/

/-- The texts that printing and rows put between what they copy, but for the `$` of a variable. -/
def ownTexts : List String :=
  ["", " ", ", ", " = ", "(", ")", "[", "]", " \x7b", "\x7d", " => ", "...", "::", "->", ": ", ";", "&",
    "-", "static ", "new ", "fn (", "function (", " use (", "return ", "return;",
    "; // => "]

/-- The characters that such a text may begin or end with so that it keeps apart what it is put
between. -/
def ownMarks : List Char :=
  [' ', ',', '=', '(', ')', '[', ']', '\x7b', '\x7d', '>', '.', ':', ';', '&', '-', '+', '?', '!', '@',
    '~']

/-- The first text ends, or the second begins, with a mark. -/
def Apart (s t : String) : Prop :=
  (∀ c ∈ s.toList.getLast?, c ∈ ownMarks) ∨ ∀ c ∈ t.toList.head?, c ∈ '$' :: ownMarks

/-- An own text that may stand before anything. -/
def IsOpening (j : String) : Prop :=
  j ∈ ownTexts ∧ j ≠ "" ∧ j.toList.getLast?.all (ownMarks.contains ·) = true

/-- An own text that may stand after anything. -/
def IsClosing (j : String) : Prop :=
  j ∈ ownTexts ∧ j.toList.head?.all (ownMarks.contains ·) = true

instance : DecidablePred IsOpening := fun _ => inferInstanceAs (Decidable (_ ∧ _ ∧ _))

instance : DecidablePred IsClosing := fun _ => inferInstanceAs (Decidable (_ ∧ _))

/-- A property of texts that printing keeps: it holds of what is written of a run with `S`, of
printing's own texts, and of texts put together apart. -/
structure Closed (S : Run → Prop) (q : Qualifier) (W : String → Prop) : Prop where
  hereditary : Run.Hereditary S
  className : W q.className
  own : ∀ j ∈ ownTexts, W j
  append : ∀ {s t : String}, W s → W t → Apart s t → W (s ++ t)
  hasVariable : ∀ {ts : Run} {name : String}, S ts → ts.HasVariable name → W ("$" ++ name)
  hasName : ∀ {ts : Run} {name : String}, S ts → ts.HasName name → W name
  text : ∀ {ts : Run} {t : Placed}, S ts → t ∈ ts → W t.text
  join : ∀ {ts : Run}, S ts → W ts.join

namespace Closed

variable {S : Run → Prop} {q : Qualifier} {W : String → Prop} (hW : Closed S q W)
include hW

theorem after {j t : String} (hj : IsOpening j) (ht : W t) : W (j ++ t) :=
  hW.append (hW.own j hj.1) ht (.inl fun c hc => by
    have hlast := hj.2.2
    rw [Option.mem_def.1 hc, Option.all_some] at hlast
    exact List.contains_iff_mem.1 hlast)

theorem before {s j : String} (hs : W s) (hj : IsClosing j) : W (s ++ j) :=
  hW.append hs (hW.own j hj.1) (.inr fun c hc => by
    have hhead := hj.2
    rw [Option.mem_def.1 hc, Option.all_some] at hhead
    exact List.mem_cons_of_mem _ (List.contains_iff_mem.1 hhead))

/-- An own text keeps two texts apart. -/
theorem joint {s j t : String} (hs : W s) (hj : IsOpening j ∧ IsClosing j) (ht : W t) :
    W (s ++ j ++ t) := by
  refine hW.append (hW.before hs hj.2) ht (.inl fun c hc => ?_)
  have hne : j.toList ≠ [] := by
    rw [ne_eq, String.toList_eq_nil_iff]
    exact hj.1.2.1
  have hlast := hj.1.2.2
  rw [String.toList_append, List.getLast?_append_of_ne_nil _ hne] at hc
  rw [Option.mem_def.1 hc, Option.all_some] at hlast
  exact List.contains_iff_mem.1 hlast

theorem intercalate {j : String} (hj : IsOpening j ∧ IsClosing j) {texts : List String}
    (h : ∀ s ∈ texts, W s) : W (j.intercalate texts) := by
  induction texts with
  | nil =>
    rw [String.intercalate_nil]
    exact hW.own _ (by decide)
  | cons s rest ih =>
    rw [List.forall_mem_cons] at h
    cases rest with
    | nil =>
      rw [String.intercalate_singleton]
      exact h.1
    | cons t rest =>
      rw [String.intercalate_cons_cons]
      exact hW.joint h.1 hj (ih h.2)

/-! ## Tokens with the spaces between them -/

omit hW in
theorem apart_of_unspaced {previous t : Token} {unary : Bool}
    (hunary : unary = true → previous.isSymbolIn Token.signs = true)
    (h : Token.needsSpace previous unary t = false) {u : String} :
    Apart (u ++ previous.text) t.text := by
  have hmarks : (∀ s ∈ Token.signs ++ Token.tight, s.toList ≠ [] ∧
        s.toList.getLast?.all (ownMarks.contains ·) = true) ∧
      ∀ s ∈ Token.closing, s.toList.head?.all (ownMarks.contains ·) = true := by
    decide
  rcases Token.unspaced_cases hunary h with hprevious | ht
  · obtain ⟨hne, hlast⟩ := hmarks.1 _ (Token.isSymbolIn_iff.1 hprevious).2
    refine .inl fun c hc => ?_
    rw [String.toList_append, List.getLast?_append_of_ne_nil _ hne] at hc
    rw [Option.mem_def.1 hc, Option.all_some] at hlast
    exact List.contains_iff_mem.1 hlast
  · have hhead := hmarks.2 _ (Token.isSymbolIn_iff.1 ht).2
    refine .inr fun c hc => ?_
    rw [Option.mem_def.1 hc, Option.all_some] at hhead
    exact List.mem_cons_of_mem _ (List.contains_iff_mem.1 hhead)

theorem spacedAfter {previous : Token} {unary : Bool} {ts : List Token}
    (hunary : unary = true → previous.isSymbolIn Token.signs = true) (h : ∀ t ∈ ts, W t.text)
    {u : String} (hu : W (u ++ previous.text)) :
    W (u ++ previous.text ++ String.join (Token.spacedAfter previous unary ts)) := by
  induction ts generalizing previous unary u with
  | nil => exact hW.before hu (j := "") (by decide)
  | cons t ts ih =>
    rw [List.forall_mem_cons] at h
    have hnext : Token.isUnary (some previous) t = true → t.isSymbolIn Token.signs = true :=
      Token.isSymbolIn_of_isUnary
    rw [Token.spacedAfter]
    split
    · have htext : W (u ++ previous.text ++ " " ++ t.text) := hW.joint hu (by decide) h.1
      have hrest := ih hnext h.2 htext
      rw [String.join_cons, String.join_cons, ← String.append_assoc, ← String.append_assoc]
      exact hrest
    · rename_i hspace
      have htext : W (u ++ previous.text ++ t.text) :=
        hW.append hu h.1 (apart_of_unspaced hunary (by simpa using hspace))
      have hrest := ih hnext h.2 htext
      rw [String.join_cons, ← String.append_assoc]
      exact hrest

theorem formatTokens {ts : List Token} (h : ∀ t ∈ ts, W t.text) : W (Token.format ts) := by
  have hcode : ∀ t ∈ ts.filter (!·.isDoc), W t.text := fun t ht => h t (List.mem_of_mem_filter ht)
  rw [Token.format]
  cases hfilter : ts.filter (!·.isDoc) with
  | nil => exact hW.own _ (by decide)
  | cons t rest =>
    rw [hfilter, List.forall_mem_cons] at hcode
    have hfirst : W ("" ++ t.text) := by
      rw [String.empty_append]
      exact hcode.1
    have hunary : Token.isUnary none t = true → t.isSymbolIn Token.signs = true :=
      Token.isSymbolIn_of_isUnary
    have hall := hW.spacedAfter hunary hcode.2 hfirst
    rw [Token.spaced, String.join_cons]
    rwa [String.empty_append] at hall

theorem format {ts : Run} (h : S ts) : W ts.format := by
  refine hW.formatTokens fun t ht => ?_
  obtain ⟨placed, hplaced, rfl⟩ := List.mem_map.1 ht
  exact hW.text h hplaced

omit hW in
theorem mem_qualifyAfter {previous : Option Token} {us : List Token} {t : Token}
    (h : t ∈ qualifyAfter q previous us) :
    t ∈ us ∨ t = ⟨.name, q.className⟩ ∨ t = .symbol "::" := by
  induction us generalizing previous with
  | nil => cases h
  | cons u us ih =>
    rw [qualifyAfter] at h
    have hrest (h : t ∈ u :: qualifyAfter q (some u) us) :
        t ∈ u :: us ∨ t = ⟨.name, q.className⟩ ∨ t = .symbol "::" := by
      rcases List.mem_cons.1 h with rfl | h
      · exact .inl List.mem_cons_self
      · exact (ih h).imp_left (List.mem_cons_of_mem u)
    split at h
    · rcases List.mem_cons.1 h with h | h
      · exact .inr (.inl h)
      · rcases List.mem_cons.1 h with h | h
        · exact .inr (.inr h)
        · exact hrest h
    · exact hrest h

theorem tokens {ts : Run} (h : S ts) : W (Print.tokens (some q) ts.tokens) := by
  refine hW.formatTokens fun t ht => ?_
  rcases mem_qualifyAfter ht with ht | rfl | rfl
  · obtain ⟨placed, hplaced, rfl⟩ := List.mem_map.1 ht
    exact hW.text h hplaced
  · exact hW.className
  · exact hW.own "::" (by decide)

/-! ## Parameters, closures and calls -/

theorem declaration {p : Param} (htype : ∀ type ∈ p.type, W type) (hname : W ("$" ++ p.name))
    (hdefault : ∀ value ∈ p.default, W value) : W p.declaration := by
  have hmark (b : Bool) {s : String} (hs : IsClosing s) : IsClosing (if b then s else "") := by
    cases b with
    | true => exact hs
    | false => exact (by decide : IsClosing "")
  have hvariable {front : String} (hfront : W front) : W (front ++ (if p.byRef then "&" else "") ++
      (if p.variadic then "..." else "") ++ "$" ++ p.name) := by
    have hmarks := hW.before (hW.before hfront (hmark p.byRef (s := "&") (by decide)))
      (hmark p.variadic (s := "...") (by decide))
    have hnamed := hW.append hmarks hname (.inr fun c hc => by
      rw [String.toList_append] at hc
      cases hc
      exact List.mem_cons_self)
    rwa [← String.append_assoc] at hnamed
  unfold Param.declaration
  refine hW.append (hvariable ?front) ?value (.inr ?meet)
  case front =>
    cases hp : p.type with
    | none => exact hW.own _ (by decide)
    | some type => exact hW.before (htype type hp) (by decide)
  case value =>
    cases hp : p.default with
    | none => exact hW.own _ (by decide)
    | some value => exact hW.after (by decide) (hdefault value hp)
  case meet =>
    cases p.default with
    | none => exact fun c hc => absurd hc (Option.not_mem_none c)
    | some value =>
      intro c hc
      rw [String.toList_append] at hc
      cases hc
      decide

theorem ofRun? {ts : Run} (h : S ts) {p : Param} (hp : Param.ofRun? ts = some p) :
    W p.declaration := by
  have hname := hW.hasVariable h (Param.hasVariable_of_ofRun? hp)
  unfold Param.ofRun? at hp
  simp only at hp
  split at hp
  · cases hp
  · rename_i v after hafter
    have hrest : (v :: after).Sublist ts := by
      rw [← hafter]
      exact List.dropWhile_sublist _
    cases hp
    -- the type is joined without spaces, the default written with them
    refine hW.declaration (fun type htype => ?_) hname fun value hvalue => ?_
    · simp only at htype
      split at htype
      · cases htype
      · obtain rfl := Option.mem_some_iff.1 htype
        exact hW.join (hW.hereditary h (List.filter_sublist.trans (List.takeWhile_sublist _)))
    · simp only at hvalue
      split at hvalue
      · split at hvalue
        · obtain rfl := Option.mem_some_iff.1 hvalue
          refine hW.format (hW.hereditary h (List.Sublist.trans ?_ hrest))
          exact (List.sublist_cons_self _ _).trans (List.sublist_cons_self _ _)
        · cases hvalue
      · cases hvalue

theorem paramList {ts : Run} (h : S ts) {head : ClosureHead} (hhead : head.ReadFrom ts) :
    W (Param.list head.params) := by
  obtain ⟨inner, hinner, hparams⟩ := hhead.params
  rw [hparams]
  refine hW.intercalate (by decide) fun text htext => ?_
  obtain ⟨p, hp, rfl⟩ := List.mem_map.1 htext
  obtain ⟨piece, hpiece, hread⟩ := List.mem_filterMap.1 hp
  exact hW.ofRun? (hW.hereditary (hW.hereditary h hinner) (Run.sublist_of_mem_splitTopLevel hpiece))
    hread

theorem uses {ts : Run} (h : S ts) {head : ClosureHead} (hhead : head.ReadFrom ts) {s : String}
    (hs : W s) : W (s ++ Print.uses head.uses) := by
  unfold Print.uses
  split
  · exact hW.before hs (by decide)
  · have hcaptures : W (", ".intercalate
        (head.uses.map fun c => (if c.byRef then "&$" else "$") ++ c.name)) := by
      refine hW.intercalate (by decide) fun text htext => ?_
      obtain ⟨c, hc, rfl⟩ := List.mem_map.1 htext
      have hname := hW.hasVariable h (hhead.uses c hc)
      split
      · exact hW.after (j := "&") (by decide) hname
      · exact hname
    have hclause := hW.before (hW.joint hs (j := " use (") (by decide) hcaptures) (j := ")")
      (by decide)
    simp only [String.append_assoc] at hclause ⊢
    exact hclause

theorem returnType {ts : Run} (h : S ts) {head : ClosureHead} (hhead : head.ReadFrom ts) {s : String}
    (hs : W s) : W (s ++ Print.returnType head.returnType) := by
  cases htype : head.returnType with
  | none => exact hW.before hs (by decide)
  | some type =>
    obtain ⟨r, hr, rfl⟩ := hhead.returnType type htype
    have hclause := hW.joint hs (j := ": ") (by decide) (hW.join (hW.hereditary h hr))
    rwa [String.append_assoc] at hclause

theorem callee {ts : Run} (h : S ts) {f : Callee} (hf : f.ReadFrom ts) :
    W (Print.callee (some q) f) := by
  cases f with
  | function name =>
    have hname := hW.hasName h hf
    unfold Print.callee
    simp only
    split
    · exact hW.joint hW.className (by decide) hname
    · exact hname
  | static className name => exact hW.joint (hW.hasName h hf.1) (by decide) (hW.hasName h hf.2)
  | method receiver name => exact hW.joint (hW.hasVariable h hf.1) (by decide) (hW.hasName h hf.2)

theorem literal {ts : Run} (h : S ts) {value : Literal} {source : String}
    (hread : Literal.ofRun? ts = some (value, source)) : W source := by
  rcases Literal.exists_of_ofRun? hread with ⟨t, rfl, -, rfl⟩ | ⟨sign, t, rfl, -, -, rfl⟩
  · exact hW.text h List.mem_cons_self
  · exact hW.after (by decide) (hW.text h (by simp))

end Closed

end Print

/-! ## Expressions and statements -/

section

variable (q : Option Qualifier)

theorem printExprs_eq_map (es : List Expr) : printExprs q es = es.map (·.print q) := by
  induction es with
  | nil => rw [printExprs, List.map_nil]
  | cons e es ih => rw [printExprs, List.map_cons, ih]

theorem printItems_eq_map (items : List ArrayItem) : printItems q items = items.map (·.print q) := by
  induction items with
  | nil => rw [printItems, List.map_nil]
  | cons item items ih => rw [printItems, List.map_cons, ih]

theorem printStatements_eq_map (ss : List Stmt) : printStatements q ss = ss.map (·.print q) := by
  induction ss with
  | nil => rw [printStatements, List.map_nil]
  | cons s ss ih => rw [printStatements, List.map_cons, ih]

end

namespace Print.Closed

variable {S : Run → Prop} {q : Qualifier} {W : String → Prop} (hW : Closed S q W)
  {source : List Char} {ts : Run}

/-- Expressions that are read from fewer tokens than `n` are printed as such texts. -/
def Below (S : Run → Prop) (q : Qualifier) (W : String → Prop) (source : List Char) (n : Nat) : Prop :=
  ∀ us : Run, us.length < n → S us → W ((CurryGen.readExpr source us).print (some q))

include hW

theorem arguments {n : Nat} (ih : Below S q W source n) (h : S ts) {args : List Run}
    (hargs : ∀ arg ∈ args, arg.Sublist ts ∧ arg.length < n) :
    W (", ".intercalate (printExprs (some q) (args.map (CurryGen.readExpr source)))) := by
  refine hW.intercalate (by decide) fun text htext => ?_
  rw [printExprs_eq_map, List.map_map] at htext
  obtain ⟨arg, harg, rfl⟩ := List.mem_map.1 htext
  exact ih arg (hargs arg harg).2 (hW.hereditary h (hargs arg harg).1)

theorem item {n : Nat} (ih : Below S q W source n) (h : S ts) (hn : ts.length < n) :
    W ((readItem source ts).print (some q)) := by
  rw [readItem]
  split
  · rw [ArrayItem.print]
    refine hW.after (by decide) (ih _ ?_ (hW.hereditary h (List.drop_sublist 1 ts)))
    rw [List.length_drop]
    omega
  · split
    · rename_i key value hbreak
      split
      · rw [ArrayItem.print]
        exact ih ts hn h
      · rw [ArrayItem.print]
        have hlength := Run.length_of_breakTopLevel? hbreak
        obtain ⟨hkey, hvalue⟩ := Run.sublist_of_breakFrom hbreak
        exact hW.joint (ih key (by omega) (hW.hereditary h hkey)) (by decide)
          (ih value (by omega) (hW.hereditary h hvalue))
    · rw [ArrayItem.print]
      exact ih ts hn h

theorem statement {n : Nat} (ih : Below S q W source n) (h : S (Run.code ts)) (hn : ts.length ≤ n) :
    W ((CurryGen.readStatement source ts).print (some q)) := by
  have hcode := ts.length_code_le
  rw [readStatement_eq]
  split
  · rename_i value hclass
    cases value with
    | none =>
      rw [Option.map_none, Stmt.print]
      exact hW.own _ (by decide)
    | some value =>
      rw [Option.map_some, Stmt.print]
      have hlength := Statement.length_lt_of_classify_ret hclass
      have hvalue := ih value (by omega)
        (hW.hereditary h (Statement.sublist_of_classify_ret hclass))
      exact hW.before (hW.after (by decide) hvalue) (by decide)
  · rename_i value hclass
    rw [Stmt.print]
    have hlength := Statement.length_lt_of_classify_expr hclass
    have hvalue := ih value (by omega) (hW.hereditary h (Statement.sublist_of_classify_expr hclass))
    exact hW.before hvalue (by decide)
  · rw [Stmt.print]
    exact hW.tokens h

theorem closure {head : ClosureHead} {body : ClosureBody} (hbody : W (body.print (some q) head)) :
    W ((Expr.closure head body).print (some q)) := by
  rw [Expr.print]
  split
  · exact hW.after (by decide) hbody
  · rwa [String.empty_append]

theorem arrow (h : S ts) {head : ClosureHead} (hhead : head.ReadFrom ts) {value : Expr}
    (hvalue : W (value.print (some q))) : W ((ClosureBody.arrow value).print (some q) head) := by
  have hparams := hW.before (hW.after (j := "fn (") (by decide) (hW.paramList h hhead)) (j := ")")
    (by decide)
  rw [ClosureBody.print]
  exact hW.joint (hW.returnType h hhead hparams) (by decide) hvalue

theorem block (h : S ts) {head : ClosureHead} (hhead : head.ReadFrom ts) {statements : List Stmt}
    (hstatements : ∀ s ∈ statements, W (s.print (some q))) :
    W ((ClosureBody.block statements).print (some q) head) := by
  have hparams := hW.before (hW.after (j := "function (") (by decide) (hW.paramList h hhead))
    (j := ")") (by decide)
  have hhead := hW.returnType h hhead (hW.uses h hhead hparams)
  have htexts : ∀ text ∈ statements.map (·.print (some q)), W text := fun text htext => by
    obtain ⟨s, hs, rfl⟩ := List.mem_map.1 htext
    exact hstatements s hs
  rw [ClosureBody.print, printStatements_eq_map]
  refine hW.before (hW.joint hhead (by decide) ?_) (by decide)
  split
  · exact hW.own _ (by decide)
  · exact hW.before (hW.after (by decide) (hW.intercalate (by decide) htexts)) (by decide)

/-- What is read from code is printed as such a text. -/
theorem readExpr (h : S ts) : W ((CurryGen.readExpr source ts).print (some q)) := by
  -- a body is cut into statements before their expressions are read, so the induction is on the length
  -- of the run and not on the tree
  induction hn : ts.length using Nat.strongRecOn generalizing ts with
  | ind n ih =>
    have ih : Below S q W source n := fun us hlt hus => ih us.length hlt hus rfl
    have hread := Shape.readFrom_of ts
    have hlt {p : Run} (hp : p ∈ (Shape.of ts).parts) : p.length < n := by
      rw [← hn]
      exact Shape.length_lt_of_mem_parts hp
    rw [readExpr_eq]
    cases hshape : Shape.of ts with
    | assign target value =>
      rw [hshape] at hread hlt
      rw [Expr.print]
      exact hW.joint (hW.hasVariable h hread.1) (by decide)
        (ih value (hlt List.mem_cons_self) (hW.hereditary h hread.2))
    | arrow head value =>
      rw [hshape] at hread hlt
      have hvalue := ih value (hlt List.mem_cons_self) (hW.hereditary h hread.2)
      exact hW.closure (hW.arrow h hread.1 hvalue)
    | block head body =>
      rw [hshape] at hread hlt
      have hbody : body.length < n := hlt List.mem_cons_self
      refine hW.closure (hW.block h hread.1 fun s hs => ?_)
      rw [readStatements_eq_map] at hs
      obtain ⟨piece, hpiece, rfl⟩ := List.mem_map.1 hs
      have hsublist := (Statement.neighbours_of_mem_split hpiece).1.sublist.trans hread.2
      have hlength := Statement.length_le_of_mem_split hpiece
      exact hW.statement ih (hW.hereditary h (List.filter_sublist.trans hsublist)) (by omega)
    | array items =>
      rw [hshape] at hread hlt
      rw [Expr.print, printItems_eq_map, List.map_map]
      refine hW.before (hW.after (by decide) (hW.intercalate (by decide) fun text htext => ?_))
        (by decide)
      obtain ⟨item, hitem, rfl⟩ := List.mem_map.1 htext
      exact hW.item ih (hW.hereditary h (hread item hitem)) (hlt hitem)
    | literal value text =>
      rw [hshape] at hread
      rw [Expr.print]
      exact hW.literal h hread
    | call f args =>
      rw [hshape] at hread hlt
      rw [Expr.print]
      have hargs := hW.arguments ih h fun arg harg => ⟨hread.2 arg harg, hlt harg⟩
      exact hW.before (hW.joint (hW.callee h hread.1) (by decide) hargs) (by decide)
    | new className args =>
      rw [hshape] at hread hlt
      rw [Expr.print]
      have hargs := hW.arguments ih h fun arg harg => ⟨hread.2 arg harg, hlt harg⟩
      exact hW.before (hW.joint (hW.after (by decide) (hW.hasName h hread.1)) (by decide) hargs)
        (by decide)
    | «variable» name =>
      rw [hshape] at hread
      rw [Expr.print]
      exact hW.hasVariable h hread
    | raw =>
      rw [Expr.print]
      exact hW.tokens h

theorem readStatement (h : S (Run.code ts)) :
    W ((CurryGen.readStatement source ts).print (some q)) :=
  hW.statement (fun _ _ hus => hW.readExpr hus) h (Nat.le_refl _)

theorem expr {e : Expr} (h : e.From S) : W (e.print (some q)) := by
  obtain ⟨source, ts, hts, rfl⟩ := h
  exact hW.readExpr hts

theorem stmt {s : Stmt} (h : s.From S) : W (s.print (some q)) := by
  obtain ⟨source, ts, hts, rfl⟩ := h
  exact hW.readStatement hts

end Print.Closed

/-! ## Texts of pieces -/

variable {P : String → Prop}

theorem Code.IsCommentLine.of_isInfix {s t : String} (h : IsCommentLine t)
    (hst : s.toList <:+: t.toList) : IsCommentLine s where
  unbroken := fun hmem => h.unbroken (hst.subset hmem)
  unclosed := fun hin => h.unclosed (hin.trans hst)

theorem Woven.append_of_head {s t : String} (hs : Woven P s) (ht : Woven P t)
    (hhead : t.toList.head? ≠ some '/') : Woven P (s ++ t) :=
  hs.append ht fun _ h => absurd h hhead

theorem Woven.append_of_apart {s t : String} (hs : Woven P s) (ht : Woven P t)
    (h : Print.Apart s t) : Woven P (s ++ t) := by
  refine hs.append ht fun hlast hhead => ?_
  rcases h with h | h
  · exact absurd (h _ hlast) (by decide)
  · exact absurd (h _ hhead) (by decide)

namespace Supplies

variable {ts : Run}

theorem hereditary : Run.Hereditary (Supplies P) := fun _ _ h hus => h.mono hus

theorem hasVariable (h : Supplies P ts) {name : String} (hname : ts.HasVariable name) :
    IsCommentLine name := by
  obtain ⟨t, ht, hvariable⟩ := hname
  obtain ⟨hkind, rfl⟩ := Token.variableName?_eq_some_iff.1 hvariable
  refine (h.isCommentLine ht (by rw [hkind]; decide)).of_isInfix ?_
  rw [String.toList_ofList]
  exact (List.drop_suffix 1 _).isInfix

theorem hasName (h : Supplies P ts) {name : String} (hname : ts.HasName name) :
    IsCommentLine name := by
  obtain ⟨t, ht, htext⟩ := hname
  obtain ⟨hkind, rfl⟩ := Token.name?_eq_some_iff.1 htext
  exact h.isCommentLine ht (by rw [hkind]; decide)

/-- Printing makes a text of pieces of them, with the class name as one. -/
theorem closed {q : Qualifier} (hq : P q.className) : Print.Closed (Supplies P) q (Woven P) where
  hereditary := hereditary
  className := .piece hq
  own := fun j hj => .plain ((by decide : ∀ j ∈ Print.ownTexts, IsCommentLine j) j hj)
  append := Woven.append_of_apart
  hasVariable := fun h hname => .after_joint (by decide) (.plain (h.hasVariable hname))
  hasName := fun h hname => .plain (h.hasName hname)
  text := fun h ht => h.text ht
  join := fun h => h.join

end Supplies

end CurryGen

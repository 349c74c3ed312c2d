import CurryGen.Artifact.Reference
import CurryGen.Proofs.Text.Pieces
import CurryGen.Proofs.Tree.Source
import CurryGen.Proofs.Value.Strings

/-!
# Line feeds in example rows

A row is put together from printed code or from rendered values. Both are made of plain parts and of
texts that are copied as they are, so a line feed in a row, or the end of a comment, stands in one of
those.

* `Examples.IsRead`: the classes that rows come from are read from source texts.
* `Examples.Verbatim`: the texts that the rows of a function copy.
* `Examples.closed_rowsOf`: what printing keeps holds of the rows of statements.
* `Examples.woven_rows`: every row is made of such texts.
* `Examples.newline_mem_row_iff`: which rows are more than one line.
-/

namespace CurryGen

open Code Scan

variable {P Q : String → Prop}

/-! ## What is read -/

/-- The class is declared in a source text. -/
def ClassDecl.IsRead (c : ClassDecl) : Prop :=
  ∃ path text file, SourceFile.read path text = .ok file ∧ c ∈ file.classes

namespace ClassDecl.IsRead

variable {c : ClassDecl} {m : MethodDecl}

/-- A method is declared by tokens that stand alone. -/
theorem exists_declared (h : c.IsRead) (hm : m ∈ c.methods) :
    ∃ run : Run, (∀ t ∈ run, Stands t.toToken []) ∧ m.DeclaredIn run ∧
      ∀ s ∈ m.statements, ∃ source r, r.Sublist run ∧ s = readStatement source r := by
  obtain ⟨path, text, file, hread, hc⟩ := h
  obtain ⟨run, hscan, hmethods⟩ := SourceFile.methods_of_read hread
  obtain ⟨hbody, hdeclared⟩ := hmethods c hc m hm
  have hscans : Scans text.toList run.tokens := scans_iff.2 ⟨run, hscan, rfl⟩
  refine ⟨run, fun t ht => hscans.stands _ (List.mem_map_of_mem ht), hdeclared, fun s hs => ?_⟩
  obtain ⟨r, hr, -, heq⟩ := hbody.exists_run hs
  exact ⟨_, r, hr.sublist, heq⟩

/-- Its name is a name. -/
theorem isCommentLine_name (h : c.IsRead) (hm : m ∈ c.methods) : IsCommentLine m.name := by
  obtain ⟨run, hstands, hdeclared, -⟩ := h.exists_declared hm
  obtain ⟨t, ht, hname⟩ := hdeclared.name
  obtain ⟨hkind, htext⟩ := Token.name?_eq_some_iff.1 hname
  rw [← htext]
  exact (hstands t ht).isCommentLine (by rw [hkind]; decide) (by rw [hkind]; decide)

/-- A statement is read from its own tokens. -/
theorem statement_from (h : c.IsRead) (hm : m ∈ c.methods) {s : Stmt} (hs : s ∈ m.statements)
    {S : Run → Prop} (hS : (∀ t ∈ s.tokens, Stands t.toToken [] ∧ t.isDoc = false) → S s.tokens) :
    s.From S := by
  obtain ⟨run, hstands, -, hstatements⟩ := h.exists_declared hm
  obtain ⟨source, r, hr, rfl⟩ := hstatements s hs
  refine ⟨source, r, ?_, rfl⟩
  rw [tokens_readStatement] at hS
  refine hS fun t ht => ?_
  obtain ⟨hmem, hdoc⟩ := List.mem_filter.1 ht
  exact ⟨hstands t (hr.subset hmem), by simpa using hdoc⟩

end ClassDecl.IsRead

namespace Examples

/-- The template, the examples and the providers are read from source texts. -/
structure IsRead (x : Examples) : Prop where
  template : ∃ c combinators, ClassDecl.IsRead c ∧ Template.ofClass c combinators = .ok x.template
  examples : x.examples.IsRead
  providers : ∀ c ∈ x.providers, c.IsRead

/-- The texts that the rows of a function copy: the shown name of the class, the string literals of
the example method, and those of the method with the test data, quoted again. Symbols in a type are
written without spaces, so a star and a slash of one statement may end a comment too. -/
inductive Verbatim (x : Examples) (f : TemplateFunction) : String → Prop
  | className : Verbatim x f x.className
  | literal {m : MethodDecl} {s : Stmt} {t : Placed} :
      x.examples.method? ("test" ++ f.capitalizedName) = some m → s ∈ m.statements → t ∈ s.tokens →
      t.kind = .string → Verbatim x f t.text
  | starSlash {m : MethodDecl} {s : Stmt} {t u : Placed} :
      x.examples.method? ("test" ++ f.capitalizedName) = some m → s ∈ m.statements → t ∈ s.tokens →
      u ∈ s.tokens → t.text.toList.getLast? = some '*' → u.text.toList.head? = some '/' →
      Verbatim x f "*/"
  | quoted {c : ClassDecl} {m : MethodDecl} {s : Stmt} {t : Placed} {cs : List Char} :
      c ∈ x.providers → c.method? f.providerName = some m → s ∈ m.statements → t ∈ s.tokens →
      t.kind = .string → Literal.unquote? t.text.toList = some cs →
      Verbatim x f (quote (String.ofList cs))

/-! ## Rows from example methods -/

section

variable {S : Run → Prop} {s next : Stmt}

theorem from_assertion? (hS : Run.Hereditary S) (hs : s.From S) {expected actual : Expr}
    (h : assertion? s = some (expected, actual)) : expected.From S ∧ actual.From S := by
  unfold assertion? at h
  split at h
  · rename_i callee expected' actual' hform
    split at h
    · cases h
      have hargs := (hs.expr hS hform).arg hS
      exact ⟨hargs _ (by simp), hargs _ (by simp)⟩
    · cases h
  · cases h

variable {q : Qualifier} {W : String → Prop} (hW : Print.Closed S q W)
include hW

theorem closed_assertionRow {expected actual : Expr} (hexpected : expected.From S)
    (hactual : actual.From S) : W (assertionRow q expected actual) :=
  hW.joint (hW.expr hactual) (by decide) (hW.expr hexpected)

theorem closed_row (hs : s.From S) : W (row q s) := by
  unfold row
  split
  · rename_i expected actual hassertion
    obtain ⟨hexpected, hactual⟩ := from_assertion? hW.hereditary hs hassertion
    exact closed_assertionRow hW hexpected hactual
  · exact hW.stmt hs

theorem closed_foldedRow? (hs : s.From S) (hnext : next.From S) {later : List Stmt} {text : String}
    (h : foldedRow? q s next later = some text) : W text := by
  unfold foldedRow? at h
  split at h
  · rename_i target value expected name hform hassertion
    split at h
    · cases h
      have hvalue := (hs.expr hW.hereditary hform).assigned hW.hereditary
      exact closed_assertionRow hW (from_assertion? hW.hereditary hnext hassertion).1 hvalue
    · cases h
  · cases h

theorem closed_rowsOf {ss : List Stmt} (h : ∀ s ∈ ss, s.From S) : ∀ text ∈ rowsOf q ss, W text := by
  fun_induction rowsOf q ss with
  | case1 => exact List.forall_mem_nil _
  | case2 s =>
    rw [List.forall_mem_singleton] at h ⊢
    exact closed_row hW h
  | case3 s next later text hfolded ih =>
    rw [List.forall_mem_cons, List.forall_mem_cons] at h
    exact List.forall_mem_cons.2 ⟨closed_foldedRow? hW h.1 h.2.1 hfolded, ih h.2.2⟩
  | case4 s next later _ ih =>
    rw [List.forall_mem_cons] at h
    exact List.forall_mem_cons.2 ⟨closed_row hW h.1, ih h.2⟩

end

/-! ## Rows from test data -/

section

variable (hQ : ∀ s, Q s → Woven P (quote s))
include hQ

theorem woven_ownTexts (shape : CallShape) {values : List Value}
    (h : ∀ v ∈ values, v.Over Q ∧ v.isPrintable = true) :
    ∀ text ∈ ownTexts shape values, Woven P text := by
  have htexts {vs : List Value} (hvs : ∀ v ∈ vs, v.Over Q ∧ v.isPrintable = true) :
      ∀ text ∈ vs.map (·.text), Woven P text := fun text htext => by
    obtain ⟨v, hv, rfl⟩ := List.mem_map.1 htext
    exact Value.woven_text hQ (hvs v hv).1 (hvs v hv).2
  unfold ownTexts
  split
  · rename_i last hlast
    refine htexts fun v hv => ?_
    rcases List.mem_append.1 hv with hv | hv
    · exact h v (List.dropLast_subset _ hv)
    · split at hlast
      · obtain ⟨list, hlist, hlast⟩ := Option.bind_eq_some_iff.1 hlast
        obtain ⟨hover, hprintable⟩ := h list (List.mem_of_getLast? hlist)
        exact ⟨hover.of_mem_asList hlast v hv, Value.isPrintable_of_mem_asList hprintable hlast v hv⟩
      · cases hlast
  · exact htexts h

theorem woven_dataRow {className : String} (hclass : P className) {f : TemplateFunction}
    (hname : IsCommentLine f.name) (shape : CallShape) {expected : Value} {args : List Value}
    (hexpected : expected.Over Q ∧ expected.isPrintable = true)
    (hargs : ∀ v ∈ args, v.Over Q ∧ v.isPrintable = true) :
    Woven P (dataRow className f shape expected args) := by
  unfold dataRow
  extract_lets variadicTail taken
  have hown : Woven P (", ".intercalate (ownTexts shape (args.take taken))) :=
    .intercalate (by decide) (woven_ownTexts hQ shape fun v hv => hargs v (List.mem_of_mem_take hv))
  have hinner : Woven P (", ".intercalate ((args.drop taken).map (·.text))) :=
    .intercalate (by decide) fun text htext => by
      obtain ⟨v, hv, rfl⟩ := List.mem_map.1 htext
      have hv := hargs v (List.mem_of_mem_drop hv)
      exact Value.woven_text hQ hv.1 hv.2
  have hcall := (((Woven.piece hclass).joint (j := "::") (by decide) (.plain hname)).joint (j := "(")
    (by decide) hown).before_joint (j := ")") (by decide)
  have happlied : Woven P (if f.returnsCallable then
      "(" ++ ", ".intercalate ((args.drop taken).map (·.text)) ++ ")" else "") := by
    split
    · exact (hinner.after_joint (by decide)).before_joint (by decide)
    · exact .plain (by decide)
  refine (hcall.append_of_head happlied ?_).joint (j := "; // => ") (by decide)
    (Value.woven_text hQ hexpected.1 hexpected.2)
  split
  · rw [String.append_assoc, String.toList_append, Scan.head?_append_of_ne_nil (by decide)]
    decide
  · decide

theorem woven_dataRow? {className : String} (hclass : P className) {f : TemplateFunction}
    (hname : IsCommentLine f.name) {shape : CallShape} {data : Value} (hdata : data.Over Q)
    {text : String} (h : dataRow? className f shape data = some text) : Woven P text := by
  unfold dataRow? at h
  split at h
  · rename_i expected args hlist
    have hover := hdata.of_mem_asList hlist
    rw [List.forall_mem_cons] at hover
    split at h
    · rename_i hprintable
      rw [Bool.and_eq_true, List.all_eq_true] at hprintable
      cases h
      exact woven_dataRow hQ hclass hname shape ⟨hover.1, hprintable.1⟩
        fun v hv => ⟨hover.2 v hv, hprintable.2 v hv⟩
    · cases h
  · cases h

end

/-! ## All rows -/

section

variable {x : Examples} {f : TemplateFunction}

theorem woven_customRows (hx : x.IsRead) :
    ∀ text ∈ x.customRows f, Woven (x.Verbatim f) text := by
  unfold customRows
  split
  · rename_i m hm
    refine closed_rowsOf (Supplies.closed (.className : x.Verbatim f _)) fun s hs => ?_
    refine hx.examples.statement_from (List.mem_of_find?_eq_some hm) hs fun htokens => ?_
    exact
      { stands := fun t ht => (htokens t ht).1
        isDoc := fun t ht => (htokens t ht).2
        string := fun t ht hkind => .literal hm hs ht hkind
        meet := fun t ht u hu hlast hhead => .starSlash hm hs ht hu hlast hhead }
  · exact List.forall_mem_nil _

/-- The strings of the test data of a function. -/
theorem over_data? (hx : x.IsRead) {entries : List (Key × Value)} (h : x.data? f = some entries) :
    (Value.array entries).Over fun s => Woven (x.Verbatim f) (quote s) := by
  simp only [data?, Option.bind_eq_bind, Option.bind_eq_some_iff] at h
  obtain ⟨c, hc, m, hm, hrun⟩ := h
  split at hrun
  · rename_i entries' hreturned
    cases hrun
    -- null as a key is the empty string, which no literal of the code need be
    refine Bindings.over_run (.plain (by decide)) (fun s hs => ?_) _ hreturned
    refine (hx.providers c hc).statement_from (List.mem_of_find?_eq_some hm) hs fun _ => ?_
    exact fun t ht hkind cs hcs => .piece (.quoted hc hm hs ht hkind hcs)
  · cases hrun

theorem IsRead.isCommentLine_name (hx : x.IsRead) (hf : f ∈ x.template.functions) :
    IsCommentLine f.name := by
  obtain ⟨c, combinators, hc, htemplate⟩ := hx.template
  rw [Template.functions_ofClass htemplate] at hf
  obtain ⟨m, hm, rfl⟩ := List.mem_map.1 hf
  exact hc.isCommentLine_name (List.mem_of_mem_filter hm)

theorem woven_basicRows (hx : x.IsRead) (hf : f ∈ x.template.functions) {rows : List String}
    (h : x.basicRows f = .ok rows) : ∀ text ∈ rows, Woven (x.Verbatim f) text := by
  unfold basicRows at h
  split at h
  · cases h
    exact List.forall_mem_nil _
  · rename_i entries hentries
    obtain ⟨shape, -, heq⟩ := Declaration.exists_of_bind h
    cases heq
    intro text htext
    obtain ⟨entry, hentry, hrow⟩ := List.mem_filterMap.1 (List.mem_of_mem_take htext)
    have hover := (over_data? hx hentries).entry entry hentry
    exact woven_dataRow? (fun _ h => h) .className (hx.isCommentLine_name hf) hover.2 hrow

/-- Every row is made of copied texts and plain parts. -/
theorem woven_rows (hx : x.IsRead) (hf : f ∈ x.template.functions) {rows : List String}
    (h : x.rows f = .ok rows) : ∀ row ∈ rows, Woven (x.Verbatim f) row := by
  unfold Examples.rows at h
  split at h
  · exact woven_basicRows hx hf h
  · cases h
    exact woven_customRows hx

end

end Examples

/-! ## Lines -/

/-- Texts that are written as lines are read as those lines unless one of them is broken. -/
theorem Code.lines_unlines_iff {ls : List String} :
    Text.lines (unlines ls).toList = ls.map String.toList ↔ ∀ l ∈ ls, '\n' ∉ l.toList := by
  constructor
  · intro h l hl
    have hline : l.toList ∈ Text.lines (unlines ls).toList := by
      rw [h]
      exact List.mem_map_of_mem hl
    exact Text.notMem_of_mem_lines hline
  · intro h
    have hpieces : Text.pieces (· == '\n') (unlines ls).toList = ls.map String.toList ++ [[]] := by
      induction ls with
      | nil => rfl
      | cons l ls ih =>
        rw [List.forall_mem_cons] at h
        have htext : (unlines (l :: ls)).toList = l.toList ++ '\n' :: (unlines ls).toList := by
          simp [unlines, String.join_cons]
        rw [htext, Statement.pieces_line_newline h.1, ih h.2, List.map_cons, List.cons_append]
    rw [Text.lines, hpieces, if_pos List.getLast?_concat, List.dropLast_concat]

/-- The lines that show rows in the reference document. -/
def Reference.codeBlock (rows : List String) : List String :=
  [".. code-block:: php", ""] ++ rows.map ("    " ++ ·) ++ [""]

theorem Reference.sectionWith_eq (className : String) (f : TemplateFunction) {rows : List String}
    (h : rows ≠ []) :
    sectionWith className f rows = sectionWith className f [] ++ codeBlock rows := by
  have hrows : rows.isEmpty = false := List.isEmpty_eq_false_iff.2 h
  simp only [sectionWith, hrows, List.isEmpty_nil, Bool.false_eq_true, if_false, if_true,
    List.append_nil]
  rfl

theorem Reference.unbroken_codeBlock_iff {rows : List String} :
    (∀ l ∈ codeBlock rows, '\n' ∉ l.toList) ↔ ∀ row ∈ rows, '\n' ∉ row.toList := by
  have hindented (row : String) : '\n' ∉ ("    " ++ row).toList ↔ '\n' ∉ row.toList := by
    rw [String.toList_append, List.mem_append]
    exact not_congr (or_iff_right (by decide))
  rw [codeBlock, List.forall_mem_append, List.forall_mem_append, List.forall_mem_map]
  simp only [hindented]
  exact ⟨fun h => h.1.2, fun h => ⟨⟨by decide, h⟩, by decide⟩⟩

/-- A class with a function and with an example method for it, which returns the end of a comment and
a line feed. -/
theorem ClassDecl.exists_breaking : ∃ s : Stmt,
    s.form = .ret (some (.literal (.string "*/\n") "'*/\n'")) ∧
    ClassDecl.IsRead { name := "T", methods :=
      [{ modifiers := ["static"], name := "f", body := some [] },
        { name := "testF", body := some [s] }] } := by
  let text := "class T\x7bstatic function f()\x7b\x7dfunction testF()\x7breturn'*/\n';\x7d\x7d"
  let value : Run := [⟨⟨.string, "'*/\n'"⟩, 52⟩]
  let inner : Run := ⟨⟨.name, "return"⟩, 46⟩ :: (value ++ [⟨.symbol ";", 57⟩])
  let first : Placed := ⟨⟨.name, "class"⟩, 0⟩
  let rest : Run :=
    [⟨⟨.name, "T"⟩, 6⟩, ⟨.symbol "\x7b", 7⟩, ⟨⟨.name, "static"⟩, 8⟩, ⟨⟨.name, "function"⟩, 15⟩,
      ⟨⟨.name, "f"⟩, 24⟩, ⟨.symbol "(", 25⟩, ⟨.symbol ")", 26⟩, ⟨.symbol "\x7b", 27⟩,
      ⟨.symbol "\x7d", 28⟩, ⟨⟨.name, "function"⟩, 29⟩, ⟨⟨.name, "testF"⟩, 38⟩, ⟨.symbol "(", 43⟩,
      ⟨.symbol ")", 44⟩, ⟨.symbol "\x7b", 45⟩] ++ inner ++
    [⟨.symbol "\x7d", 58⟩, ⟨.symbol "\x7d", 59⟩]
  have hscan : scan text.toList = .ok (first :: rest) := by cbv
  have hclass (ctx : Declaration.Context) : Declaration.readClass ctx .regular first rest = .ok
      ({ name := "T", methods :=
        [{ modifiers := ["static"], name := "f", body := some (readStatements ctx.source []) },
          { name := "testF", body := some (readStatements ctx.source inner) }] }, []) := by
    cbv
  have hnone : readStatements text.toList [] = [] := by
    rw [readStatements_eq_map]
    rfl
  have hstatements : readStatements text.toList inner = [readStatement text.toList inner] := by
    have hsplit : Statement.split inner = [inner] := by decide +kernel
    rw [readStatements_eq_map, hsplit, List.map_singleton]
  refine ⟨readStatement text.toList inner, ?_, ⟨"t.php"⟩, text, ⟨none, [], [_]⟩, ?_,
    List.mem_singleton.2 rfl⟩
  · have hclassify : Statement.classify inner.code = .ret (some value) := by cbv
    have hliteral : readExpr text.toList value = .literal (.string "*/\n") "'*/\n'" :=
      readExpr_literal rfl rfl rfl (by cbv)
    rw [form_readStatement, hclassify, ← hliteral]
    rfl
  · rw [← hstatements, ← hnone]
    exact SourceFile.read_class hscan rfl fun last => hclass ⟨text.toList, last⟩

theorem Examples.exists_breaking : ∃ (x : Examples) (f : TemplateFunction), x.IsRead ∧
    f ∈ x.template.functions ∧ f.doc = {} ∧ x.rows f = .ok ["return '*/\n';"] := by
  obtain ⟨s, hform, hread⟩ := ClassDecl.exists_breaking
  let f : MethodDecl := { modifiers := ["static"], name := "f", body := some [] }
  let m : MethodDecl := { name := "testF", body := some [s] }
  let c : ClassDecl := { name := "T", methods := [f, m] }
  let x : Examples := ⟨⟨[⟨f⟩], {}, by decide +kernel⟩, c, none, "P"⟩
  have hmethod : x.customRows ⟨f⟩ = rowsOf x.qualifier [s] := by cbv
  have hrow : row x.qualifier s = "return '*/\n';" := by
    cases s
    cases hform
    rfl
  refine ⟨x, ⟨f⟩, ⟨⟨c, {}, hread, rfl⟩, hread, fun _ h => absurd h (Option.not_mem_none _)⟩,
    List.mem_singleton.2 rfl, rfl, ?_⟩
  rw [rows, hmethod, rowsOf, hrow]

/-- **The lines of rows.** A row is broken exactly by the line feeds of the texts that it copies:
those of string literals, with the escapes of test data undone, and those of the name the class is
shown as. The code block of the reference document, which ends the section of a function, has each row
on a line of its own exactly when no copied text in a row has one. -/
theorem Examples.newline_mem_row_iff {x : Examples} {f : TemplateFunction} {rows : List String}
    (hx : x.IsRead) (hf : f ∈ x.template.functions) (h : x.rows f = .ok rows) :
    (∀ row ∈ rows, '\n' ∈ row.toList ↔
      ∃ w, x.Verbatim f w ∧ '\n' ∈ w.toList ∧ w.toList <:+: row.toList) ∧
    (rows ≠ [] → ∀ className, Reference.sectionWith className f rows =
      Reference.sectionWith className f [] ++ Reference.codeBlock rows) ∧
    (Text.lines (unlines (Reference.codeBlock rows)).toList =
        (Reference.codeBlock rows).map String.toList ↔
      ∀ row ∈ rows, ∀ w, x.Verbatim f w → w.toList <:+: row.toList → '\n' ∉ w.toList) := by
  have hbroken : ∀ row ∈ rows, '\n' ∈ row.toList ↔
      ∃ w, x.Verbatim f w ∧ '\n' ∈ w.toList ∧ w.toList <:+: row.toList := by
    intro row hrow
    constructor
    · intro hmem
      obtain ⟨w, hw, hin, hpart⟩ := (woven_rows hx hf h row hrow).exists_piece (.inl rfl)
        ((List.singleton_infix_iff _ _).2 hmem)
      exact ⟨w, hw, (List.singleton_infix_iff _ _).1 hin, hpart⟩
    · rintro ⟨w, -, hmem, hpart⟩
      exact hpart.subset hmem
  refine ⟨hbroken, fun hne className => Reference.sectionWith_eq className f hne, ?_⟩
  rw [lines_unlines_iff, Reference.unbroken_codeBlock_iff]
  refine forall₂_congr fun row hrow => ?_
  rw [hbroken row hrow]
  constructor
  · exact fun hnone w hw hpart hmem => hnone ⟨w, hw, hmem, hpart⟩
  · rintro hall ⟨w, hw, hmem, hpart⟩
    exact hall w hw hpart hmem

/-- A row that copies a string over two lines, and so takes two lines of the document. -/
theorem Examples.newline_mem_row_iff_returned :
    ∃ (x : Examples) (f : TemplateFunction) (row : String), x.IsRead ∧
    f ∈ x.template.functions ∧ x.rows f = .ok [row] ∧
    (∃ w, x.Verbatim f w ∧ '\n' ∈ w.toList ∧ w.toList <:+: row.toList) ∧
    Text.lines (unlines (Reference.codeBlock [row])).toList ≠
      (Reference.codeBlock [row]).map String.toList := by
  obtain ⟨x, f, hx, hf, -, hrows⟩ := exists_breaking
  obtain ⟨hbroken, -, hlines⟩ := newline_mem_row_iff hx hf hrows
  have hrow := List.mem_singleton_self "return '*/\n';"
  obtain ⟨w, hw, hmem, hpart⟩ := (hbroken _ hrow).1 (by decide)
  refine ⟨x, f, _, hx, hf, hrows, ⟨w, hw, hmem, hpart⟩, fun heq => ?_⟩
  exact hlines.1 heq _ hrow w hw hpart hmem

end CurryGen

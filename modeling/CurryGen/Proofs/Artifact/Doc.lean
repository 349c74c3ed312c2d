import CurryGen.Artifact.Api
import CurryGen.Proofs.Example.Line
import CurryGen.Proofs.Token.Partition

/-!
# Examples in documentation comments

The documentation of a library method is that of the template with the example rows in it. The lines
of the template have stood in a comment before, so it is the rows alone that can end the comment too
early, and they do so with the texts they copy.

* `DocComment.unclosed_read`: no line of a comment ends a comment.
* `Api.unclosed_curriedDoc_iff`: neither does one of the method's, unless it is a row.
* `Code.IsOneComment`: lines that are read back as one comment.
* `Api.isOneComment_doc_iff`: when the documentation of a method is one comment.
-/

namespace CurryGen

open Code Scan Text

/-! ## The documentation of the template -/

/-- A documentation comment has its first end at its end. -/
theorem Scan.Stands.exists_doc {t : Token} (h : Stands t []) (hdoc : t.kind = .doc) :
    ∃ v, t.text.toList = "/**".toList ++ (v ++ "*/".toList) ∧ ¬"*/".toList <:+: v := by
  obtain ⟨c, w, htext, hfound⟩ := h
  rw [hdoc] at hfound
  obtain ⟨ds, rfl, rfl, hclose, hhead, hlength⟩ := exists_of_found_doc hfound
  obtain ⟨v, rfl, hv⟩ := exists_of_closeComment hclose
  cases v with
  | nil => exact absurd rfl hlength
  | cons d v =>
    obtain rfl : d = '*' := Option.some.inj hhead
    refine ⟨v, by rw [htext]; rfl, fun hin => hv (hin.trans ?_)⟩
    exact (List.prefix_append v ['*']).isInfix.trans (List.suffix_cons '*' _).isInfix

namespace DocComment

theorem undecorate_isInfix (line : String) : (undecorate line).toList <:+: line.toList := by
  unfold undecorate
  exact (trimEnd_isInfix _).trans ((after?_isInfix " " _).trans
    ((after?_isInfix "*" _).trans (trim_isInfix line)))

theorem mem_of_mem_dropEmptyEnds {lines : List String} {line : String}
    (h : line ∈ dropEmptyEnds lines) : line ∈ lines := by
  rw [dropEmptyEnds, List.mem_reverse] at h
  have hfront := List.mem_reverse.1 ((List.dropWhile_sublist _).subset h)
  exact (List.dropWhile_sublist _).subset hfront

/-- No line of a comment ends a comment. -/
theorem unclosed_read {t : Token} (h : Stands t []) (hdoc : t.kind = .doc) :
    ∀ line ∈ (DocComment.read t.text).lines, ¬"*/".toList <:+: line.toList := by
  obtain ⟨v, htext, hv⟩ := h.exists_doc hdoc
  intro line hline hin
  rw [lines_read htext] at hline
  obtain ⟨piece, hpiece, rfl⟩ := List.mem_map.1 (mem_of_mem_dropEmptyEnds hline)
  have hpart := undecorate_isInfix (String.ofList piece)
  rw [String.toList_ofList] at hpart
  exact hv (hin.trans (hpart.trans (isInfix_of_mem_lines hpiece)))

end DocComment

theorem ClassDecl.IsRead.unclosed_doc {c : ClassDecl} (h : c.IsRead) {m : MethodDecl}
    (hm : m ∈ c.methods) :
    ∀ line ∈ (TemplateFunction.mk m).doc.lines, ¬"*/".toList <:+: line.toList := by
  obtain ⟨run, hstands, hdeclared, -⟩ := h.exists_declared hm
  unfold TemplateFunction.doc
  cases hdoc : m.doc with
  | none => exact List.forall_mem_nil _
  | some text =>
    obtain ⟨t, ht, hkind, rfl⟩ := hdeclared.doc text hdoc
    exact DocComment.unclosed_read (hstands t ht) (eq_of_beq hkind)

/-! ## The documentation of a method -/

theorem mem_modify {α : Type} {l : List α} {i : Nat} {g : α → α} {a : α} (h : a ∈ l.modify i g) :
    a ∈ l ∨ ∃ b ∈ l, a = g b := by
  obtain ⟨j, hj⟩ := List.mem_iff_getElem?.1 h
  rw [List.getElem?_modify] at hj
  obtain ⟨b, hb, rfl⟩ := Option.map_eq_some_iff.1 hj
  split
  · exact .inr ⟨b, List.mem_of_getElem? hb, rfl⟩
  · exact .inl (List.mem_of_getElem? hb)

namespace Api

variable {f : TemplateFunction} {rows lines : List String}

theorem unclosed_returnRewritten (hdoc : ∀ line ∈ f.doc.lines, ¬"*/".toList <:+: line.toList) :
    ∀ line ∈ returnRewritten f, ¬"*/".toList <:+: line.toList := by
  intro line hline hin
  unfold returnRewritten at hline
  split at hline
  · split at hline
    · rcases mem_modify hline with hline | ⟨original, horiginal, rfl⟩
      · exact hdoc line hline hin
      · rw [String.toList_append] at hin
        -- the new front of the tag ends with a bar, so it ends no comment with what follows
        rcases IsMark.isInfix_append (.inr rfl) hin with hin | hin | ⟨-, hlast, -⟩
        · exact absurd hin (by decide)
        · have hpart := (trimStart_isInfix _).trans (after?_isInfix "@return" original)
          exact hdoc original horiginal (hin.trans hpart)
        · exact absurd hlast (by decide)
    · exact hdoc line hline hin
  · exact hdoc line hline hin

theorem mem_dropEmptyEnd {line : String} (h : line ∈ dropEmptyEnd lines) : line ∈ lines := by
  rw [dropEmptyEnd, List.mem_reverse] at h
  exact List.mem_reverse.1 ((List.dropWhile_sublist _).subset h)

theorem forall_mem_withCode_iff {P : String → Prop} {before after : List String}
    (hbefore : ∀ line ∈ before, P line) (hafter : ∀ line ∈ after, P line)
    (hown : ∀ line ∈ ["", "```php", "```"], P line) :
    (∀ line ∈ withCode before rows after, P line) ↔ ∀ row ∈ rows, P row := by
  have hempty := hown "" (by decide)
  have hfront : ∀ line ∈ dropEmptyEnd before, P line := fun line hline =>
    hbefore line (mem_dropEmptyEnd hline)
  have hgap : ∀ line ∈ if (dropEmptyEnd before).isEmpty then [] else [""], P line := by
    split
    · exact List.forall_mem_nil _
    · exact List.forall_mem_singleton.2 hempty
  have hend : ∀ line ∈ if after.isEmpty then [] else "" :: after, P line := by
    split
    · exact List.forall_mem_nil _
    · exact List.forall_mem_cons.2 ⟨hempty, hafter⟩
  simp only [withCode, List.forall_mem_append, List.forall_mem_singleton]
  exact ⟨fun h => h.1.1.2, fun h => ⟨⟨⟨⟨⟨hfront, hgap⟩, hown _ (by decide)⟩, h⟩, hown _ (by decide)⟩,
    hend⟩⟩

/-- No line of the documentation ends a comment, unless it is a row. -/
theorem unclosed_curriedDoc_iff (hdoc : ∀ line ∈ f.doc.lines, ¬"*/".toList <:+: line.toList)
    (h : curriedDoc f rows = some lines) :
    (∀ line ∈ lines, ¬"*/".toList <:+: line.toList) ↔
      ∀ row ∈ rows, ¬"*/".toList <:+: row.toList := by
  have hlines := unclosed_returnRewritten hdoc
  unfold curriedDoc at h
  split at h
  · cases h
  · simp only at h
    split at h
    · rename_i hempty
      cases h
      obtain rfl := List.isEmpty_iff.1 hempty
      exact iff_of_true hlines (List.forall_mem_nil _)
    · cases h
      exact forall_mem_withCode_iff (fun line hline => hlines line (List.mem_of_mem_take hline))
        (fun line hline => hlines line (List.mem_of_mem_drop hline)) (by decide)

end Api

/-! ## One comment -/

/-- The lines, written as a documentation comment, are read as that comment and nothing else. -/
def Code.IsOneComment (depth : Nat) (lines : List String) : Prop :=
  ∃ run, scan (unlines (linesFrom depth (docMarks (some lines)))).toList = .ok run ∧
    run.tokens = [⟨.doc, docText depth lines⟩]

theorem Code.isOneComment_iff {depth : Nat} {lines : List String} :
    IsOneComment depth lines ↔ ∀ line ∈ lines, ¬"*/".toList <:+: line.toList := by
  unfold IsOneComment
  rw [← scans_iff]
  constructor
  · exact fun h => stands_docText_iff.1 (h.stands _ (List.mem_singleton.2 rfl))
  · exact fun h => (Lays.docComment h depth).scans_unlines

/-- **Examples in a comment.** The documentation of a library method is one comment exactly when none
of the texts that its rows copy ends a comment: a string literal, a string of the test data, the name
the class is shown as, or a star and a slash that a type brings together. -/
theorem Api.isOneComment_doc_iff {x : Examples} {f : TemplateFunction} {c : Config} {m : Method}
    {lines : List String} (hx : x.IsRead) (hf : f ∈ x.template.functions)
    (h : Api.method c x f = .ok m) (hdoc : m.doc = some lines) (depth : Nat) :
    ∃ rows, x.rows f = .ok rows ∧ (IsOneComment depth lines ↔
      ∀ row ∈ rows, ∀ w, x.Verbatim f w → w.toList <:+: row.toList →
        ¬"*/".toList <:+: w.toList) := by
  obtain ⟨rows, hrows, rfl⟩ := Declaration.exists_of_map h
  have htemplate : ∀ line ∈ f.doc.lines, ¬"*/".toList <:+: line.toList := by
    obtain ⟨decl, combinators, hdecl, hfunctions⟩ := hx.template
    rw [Template.functions_ofClass hfunctions] at hf
    obtain ⟨method, hmethod, rfl⟩ := List.mem_map.1 hf
    exact hdecl.unclosed_doc (List.mem_of_mem_filter hmethod)
  refine ⟨rows, hrows, ?_⟩
  rw [Code.isOneComment_iff, unclosed_curriedDoc_iff htemplate hdoc]
  refine forall₂_congr fun row hrow => ?_
  constructor
  · exact fun hnone w _ hpart hin => hnone (hin.trans hpart)
  · intro hall hin
    obtain ⟨w, hw, hclose, hpart⟩ :=
      (Examples.woven_rows hx hf hrows row hrow).exists_piece (.inr rfl) hin
    exact hall w hw hpart hclose

/-- A row that copies a string with the end of a comment, and so ends the documentation. -/
theorem Api.isOneComment_doc_iff_returned : ∃ (x : Examples) (f : TemplateFunction) (m : Method)
    (lines : List String), x.IsRead ∧ f ∈ x.template.functions ∧ Api.method {} x f = .ok m ∧
    m.doc = some lines ∧ ¬IsOneComment 1 lines := by
  obtain ⟨x, f, hx, hf, hnone, hrows⟩ := Examples.exists_breaking
  have hmethod : Api.method {} x f = .ok (methodWith {} f ["return '*/\n';"]) := by
    rw [Api.method, hrows]
    rfl
  have hdoc : curriedDoc f ["return '*/\n';"] = some ["```php", "return '*/\n';", "```"] := by
    rw [curriedDoc, returnRewritten, hnone]
    rfl
  refine ⟨x, f, _, _, hx, hf, hmethod, hdoc, fun hone => ?_⟩
  obtain ⟨rows, hrows', hiff⟩ := Api.isOneComment_doc_iff hx hf hmethod hdoc 1
  obtain rfl := Except.ok.inj (hrows.symm.trans hrows')
  have hrow := List.mem_singleton_self "return '*/\n';"
  obtain ⟨w, hw, hclose, hpart⟩ := (Examples.woven_rows hx hf hrows _ hrow).exists_piece (.inr rfl)
    (by decide)
  exact hiff.1 hone _ hrow w hw hpart hclose

end CurryGen

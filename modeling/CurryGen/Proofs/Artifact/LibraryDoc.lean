import CurryGen.Proofs.Doc.Comment
import CurryGen.Proofs.ClassName

/-!
# The documentation of library methods

A library method has the documentation of its template function, which says that a curried function
may also return a callable, with the example rows in a code block before the tags.

* `Api.withCallable`: the line of the return tag in the library.
* `Api.Rewritten`: what rewriting that line makes of a comment.
* `Api.ShowsRows`: how a code block stands in the lines of a comment.
* `Api.curriedDoc_law`: what the documentation of a library method says and how it is laid out.
-/

namespace CurryGen

open Text

/-! ## A mark in front of a text -/

namespace Text

variable {u : List Char}

theorem pieces_append_of_forall {p : Char → Bool} (hu : ∀ c ∈ u, p c = false) {v first : List Char}
    {rest : List (List Char)} (hv : pieces p v = first :: rest) :
    pieces p (u ++ v) = (u ++ first) :: rest := by
  induction u with
  | nil => exact hv
  | cons c u ih =>
    obtain ⟨hc, hu⟩ := List.forall_mem_cons.1 hu
    rw [List.cons_append, pieces, hc, ih hu]
    rfl

theorem dropTrailingBlanks_append (hu : ∀ c ∈ u, isBlank c = false) (v : List Char) :
    dropTrailingBlanks (u ++ v) = u ++ dropTrailingBlanks v := by
  induction u with
  | nil => rfl
  | cons c u ih =>
    obtain ⟨hc, hu⟩ := List.forall_mem_cons.1 hu
    rw [List.cons_append, Scan.dropTrailingBlanks_cons_nonblank hc, ih hu, List.cons_append]

/-- A trimmed text does not begin with a blank. -/
theorem isBlank_head?_trim (s : String) : ∀ c ∈ (trim s).toList.head?, isBlank c = false := by
  intro c hc
  rw [trim, String.toList_ofList] at hc
  obtain ⟨rest, hrest⟩ := Statement.dropTrailingBlanks_isPrefix (dropBlanks s.toList)
  have hhead : (dropBlanks s.toList).head? = some c := by
    rw [← hrest, List.head?_append, hc]
    rfl
  have hnot := List.head?_dropWhile_not isBlank s.toList
  rw [show s.toList.dropWhile isBlank = dropBlanks s.toList from rfl, hhead] at hnot
  simpa using hnot

/-- A mark without blanks becomes part of the first word. -/
theorem words_append {mark s first : String} {rest : List String}
    (hmark : mark.toList.any isBlank = false)
    (hs : ∀ c ∈ s.toList.head?, isBlank c = false) (h : words s = first :: rest) :
    words (mark ++ s) = (mark ++ first) :: rest := by
  have hmark' : ∀ c ∈ mark.toList, isBlank c = false := by simpa using hmark
  obtain ⟨piece, more, hpieces⟩ := List.exists_cons_of_ne_nil (pieces_ne_nil isBlank s.toList)
  have hpiece : piece ≠ [] := by
    rintro rfl
    cases hcs : s.toList with
    | nil =>
      rw [words, hcs] at h
      cases h
    | cons c cs =>
      rw [hcs, pieces, hs c (by simp [hcs])] at hpieces
      obtain ⟨next, others, hnext⟩ := List.exists_cons_of_ne_nil (pieces_ne_nil isBlank cs)
      rw [hnext] at hpieces
      cases hpieces
  rw [words, hpieces, List.filter_cons_of_pos (by simp [hpiece]), List.map_cons] at h
  obtain ⟨rfl, rfl⟩ := List.cons.inj h
  rw [words, String.toList_append, pieces_append_of_forall hmark' hpieces,
    List.filter_cons_of_pos (by simp [hpiece]), List.map_cons, String.ofList_append,
    String.ofList_toList]

end Text

/-! ## The return tag -/

namespace ReturnTag

/-- The tag with a further type. -/
def addCallable (tag : ReturnTag) : ReturnTag := { tag with primary := "callable|" ++ tag.primary }

theorem types_addCallable (tag : ReturnTag) : tag.addCallable.types = "callable" :: tag.types :=
  splitAt_append '|' "callable" tag.primary

theorem of?_callable {line : Nat} {content : String} {tag : ReturnTag}
    (hcontent : ∀ c ∈ content.toList.head?, isBlank c = false) (h : of? line content = some tag) :
    of? line ("callable|" ++ content) = some tag.addCallable := by
  unfold of? at h
  split at h
  · cases h
  · rename_i primary rest hwords
    obtain rfl := Option.some.inj h
    rw [of?, words_append (by decide) hcontent hwords]
    rfl

end ReturnTag

namespace DocComment

/-- The lines are those of the comment, up to the line of its return tag. -/
def AgreesOffReturn (doc : DocComment) (lines : List String) : Prop :=
  lines.length = doc.lines.length ∧
    ∀ i, doc.returnTag?.map (·.line) ≠ some i → lines[i]? = doc.lines[i]?

end DocComment

namespace Api

open DocComment

/-! ## Rewriting the return tag -/

/-- The line of a return tag in the library. -/
def withCallable (line : String) : String :=
  "@return callable|" ++ trimStart ((after? "@return" line).getD line)

theorem tagContent?_withCallable {line content : String}
    (h : tagContent? "return" line = some content) :
    tagContent? "return" (withCallable line) = some ("callable|" ++ content) := by
  obtain ⟨rest, rfl, -, rfl⟩ := tagContent?_eq_some_iff.1 h
  have hafter : after? "@return" ("@" ++ "return" ++ rest) = some rest := after?_eq_some_iff.2 rfl
  unfold withCallable
  rw [hafter, Option.getD_some]
  refine tagContent?_eq_some_iff.2 ⟨" callable|" ++ trimStart rest, ?_, ?_, ?_⟩
  · rw [← String.append_assoc]
    rfl
  · rw [EndsName, String.toList_append]
    rfl
  · have hfront : dropBlanks (" callable|" ++ trimStart rest).toList =
        "callable|".toList ++ dropBlanks rest.toList := by
      have hrest : (trimStart rest).toList = dropBlanks rest.toList := String.toList_ofList
      rw [String.toList_append, hrest]
      rfl
    have hmark : ∀ c ∈ "callable|".toList, isBlank c = false := by simp [isBlank]
    rw [trim, trim, hfront, dropTrailingBlanks_append hmark, String.ofList_append,
      String.ofList_toList]

/-- The return types in the library: a curried function may also return a callable, unless that is
all it returns. -/
def libraryTypes (f : TemplateFunction) (types : List String) : List String :=
  if f.isCurried = true ∧ types ≠ ["callable"] then "callable" :: types else types

/-- The lines say what those of the template say, but for the types of the return tag. -/
structure Rewritten (f : TemplateFunction) (lines : List String) : Prop where
  param : contents "param" lines = contents "param" f.doc.lines
  deprecated : contents "deprecated" lines = contents "deprecated" f.doc.lines
  returned : (contents "return" lines).head?.bind (fun content =>
      (ReturnTag.of? 0 content).map ReturnTag.meaning) =
    f.doc.returnTag?.map fun tag => (libraryTypes f tag.types, tag.description)
  firstTag : lines.findIdx? isOtherTag = f.doc.firstTagLine?
  agrees : f.doc.AgreesOffReturn lines

theorem modify_append_cons {α : Type} (g : α → α) (before : List α) (a : α) (after : List α) :
    (before ++ a :: after).modify before.length g = before ++ g a :: after := by
  induction before with
  | nil => rfl
  | cons b before ih => simp [ih]

theorem returnsCallable_iff {f : TemplateFunction} {tag : ReturnTag}
    (h : f.doc.returnTag? = some tag) : f.returnsCallable = true ↔ tag.types = ["callable"] := by
  have htypes : f.returnTypes = tag.types := by
    unfold TemplateFunction.returnTypes TemplateFunction.signature Signature.infer
    rw [h]
    rfl
  rw [TemplateFunction.returnsCallable, htypes, beq_iff_eq]

/-- A comment whose return tag gets no further type stays as it is. -/
theorem rewritten_self {f : TemplateFunction}
    (h : ∀ tag, f.doc.returnTag? = some tag → libraryTypes f tag.types = tag.types) :
    Rewritten f f.doc.lines where
  param := rfl
  deprecated := rfl
  returned := by
    rw [← map_meaning_returnTag?]
    cases htag : f.doc.returnTag? with
    | none => rfl
    | some tag =>
      rw [Option.map_some, Option.map_some, h tag htag]
      rfl
  firstTag := rfl
  agrees := ⟨rfl, fun _ _ => rfl⟩

/-- The return tag with a further type. -/
theorem rewritten_modify {f : TemplateFunction} {tag : ReturnTag} (h : f.doc.returnTag? = some tag)
    (htypes : libraryTypes f tag.types = "callable" :: tag.types) :
    Rewritten f (f.doc.lines.modify tag.line withCallable) := by
  obtain ⟨before, line, after, content, hlines, hlength, hnone, hcontent, htag⟩ :=
    exists_of_returnTag? h
  have hcallable := tagContent?_withCallable hcontent
  have hmodify : f.doc.lines.modify tag.line withCallable =
      before ++ withCallable line :: after := by
    rw [hlines, ← hlength, modify_append_cons]
  have hother (name : String) (hname : ¬name.toList <+: "return".toList)
      (hreturn : ¬"return".toList <+: name.toList) :
      contents name (f.doc.lines.modify tag.line withCallable) = contents name f.doc.lines := by
    have hline : tagContent? name line = none :=
      tagContent?_eq_none (by rw [hcontent]; rfl) hname hreturn
    have hline' : tagContent? name (withCallable line) = none :=
      tagContent?_eq_none (by rw [hcallable]; rfl) hname hreturn
    rw [hmodify, hlines, contents_append, contents_append, contents_cons_of_none hline,
      contents_cons_of_none hline']
  refine ⟨hother "param" (by decide) (by decide), hother "deprecated" (by decide) (by decide),
    ?_, ?_, ?_⟩
  · have hhead : (contents "return" (before ++ withCallable line :: after)).head? =
        some ("callable|" ++ content) := by
      rw [contents_append, hnone, contents, List.filterMap_cons_some hcallable]
      rfl
    have hblank : ∀ c ∈ content.toList.head?, isBlank c = false := by
      obtain ⟨rest, -, -, rfl⟩ := tagContent?_eq_some_iff.1 hcontent
      exact isBlank_head?_trim rest
    rw [hmodify, hhead, Option.bind_some, ReturnTag.of?_callable hblank htag, h, Option.map_some,
      Option.map_some, htypes, ReturnTag.meaning, ReturnTag.types_addCallable]
    rfl
  · rw [hmodify, DocComment.firstTagLine?, hlines, List.findIdx?_append, List.findIdx?_append,
      List.findIdx?_cons, List.findIdx?_cons, isOtherTag_of_return hcontent,
      isOtherTag_of_return hcallable]
  · refine ⟨List.length_modify .., fun i hi => ?_⟩
    have hne : tag.line ≠ i := by simpa [h] using hi
    simp [hne]

theorem gains_iff {f : TemplateFunction} {tag : ReturnTag} (h : f.doc.returnTag? = some tag) :
    (f.isCurried && !f.returnsCallable) = true ↔ f.isCurried = true ∧ tag.types ≠ ["callable"] := by
  rw [Bool.and_eq_true, Bool.not_eq_true', ← Bool.not_eq_true, returnsCallable_iff h]

theorem rewritten_returnRewritten (f : TemplateFunction) : Rewritten f (returnRewritten f) := by
  unfold returnRewritten
  split
  · rename_i tag htag
    split
    · rename_i hgains
      rw [gains_iff htag] at hgains
      exact rewritten_modify htag (if_pos hgains)
    · rename_i hkeeps
      rw [gains_iff htag] at hkeeps
      refine rewritten_self fun tag' htag' => ?_
      obtain rfl := Option.some.inj (htag.symm.trans htag')
      exact if_neg hkeeps
  · rename_i hnone
    exact rewritten_self fun tag htag => by rw [hnone] at htag; cases htag

/-! ## Placing the examples -/

/-- The example rows as a code block. -/
def codeBlock (rows : List String) : List String := "```php" :: rows ++ ["```"]

/-- One empty line on a side where there is text. -/
def gap (text : List String) : List String := if text = [] then [] else [""]

/-- The rows stand in a code block between `before` and `after`. Before it are the lines above the
first tag, after it are the tags, and each side is one empty line away. -/
structure ShowsRows (kept rows lines before after : List String) : Prop where
  layout : lines = before ++ gap before ++ codeBlock rows ++ gap after ++ after
  /-- The empty line of the gap is the only one. -/
  ended : before.getLast? ≠ some ""
  /-- The first tag other than `@deprecated` is where `after` begins. -/
  firstTag : (DocComment.mk lines).firstTagLine? =
    if after = [] then none else some (lines.length - after.length)
  /-- Nothing but empty lines above the tags is left out. -/
  kept : ∃ n, kept = before ++ List.replicate n "" ++ after

variable {rows before after : List String}

theorem withCode_eq (before rows after : List String) : withCode before rows after =
    dropEmptyEnd before ++ gap (dropEmptyEnd before) ++ codeBlock rows ++ gap after ++ after := by
  unfold withCode gap codeBlock
  cases dropEmptyEnd before <;> cases after <;> simp

theorem exists_dropEmptyEnd (lines : List String) :
    ∃ n, lines = dropEmptyEnd lines ++ List.replicate n "" := by
  have hempty : lines.rtakeWhile (· == "") =
      List.replicate (lines.rtakeWhile (· == "")).length "" :=
    List.eq_replicate_length.2 fun line hline => by simpa using List.mem_rtakeWhile_imp hline
  refine ⟨(lines.rtakeWhile (· == "")).length, ?_⟩
  rw [← hempty]
  exact List.rdropWhile_append_rtakeWhile.symm

theorem getLast?_dropEmptyEnd (lines : List String) : (dropEmptyEnd lines).getLast? ≠ some "" := by
  intro h
  have hnot := List.head?_dropWhile_not (· == "") lines.reverse
  rw [dropEmptyEnd, List.getLast?_reverse] at h
  rw [h] at hnot
  cases hnot

theorem startsWith_gap (text : List String) : ∀ line ∈ gap text, startsWith "@" line = false := by
  unfold gap
  split
  · exact List.forall_mem_nil _
  · exact List.forall_mem_singleton.2 (by decide)

theorem startsWith_codeBlock (hrows : ∀ row ∈ rows, startsWith "@" row = false) :
    ∀ line ∈ codeBlock rows, startsWith "@" line = false := by
  refine List.forall_mem_cons.2 ⟨by decide, List.forall_mem_append.2 ⟨hrows, ?_⟩⟩
  exact List.forall_mem_singleton.2 (by decide)

/-- A code block and empty lines are no tags. -/
theorem contents_withCode (hrows : ∀ row ∈ rows, startsWith "@" row = false) (name : String)
    (before after : List String) :
    contents name (withCode before rows after) = contents name (before ++ after) := by
  have hnone {lines : List String} (h : ∀ line ∈ lines, startsWith "@" line = false) :
      contents name lines = [] :=
    List.filterMap_eq_nil_iff.2 fun line hline => tagContent?_eq_none_of_not (h line hline)
  have hgap (text : List String) : contents name (gap text) = [] := hnone (startsWith_gap text)
  have hblock : contents name (codeBlock rows) = [] := hnone (startsWith_codeBlock hrows)
  obtain ⟨n, hbefore⟩ := exists_dropEmptyEnd before
  have hempty : contents name (List.replicate n "") = [] :=
    hnone fun line hline => by rw [List.eq_of_mem_replicate hline]; decide
  have hfront : contents name (dropEmptyEnd before) = contents name before := by
    conv => rhs; rw [hbefore, contents_append, hempty, List.append_nil]
  simp only [withCode_eq, contents_append, hgap, hblock, hfront, List.append_nil]

/-- The first tag of lines without tags and of tags after them. -/
theorem findIdx?_append_tags {front : List String}
    (hfront : ∀ line ∈ front, isOtherTag line = false)
    (hafter : ∀ line ∈ after.head?, isOtherTag line = true) :
    (front ++ after).findIdx? isOtherTag =
      if after = [] then none else some ((front ++ after).length - after.length) := by
  rw [List.findIdx?_append, List.findIdx?_eq_none_iff.2 hfront, Option.none_or]
  cases after with
  | nil => rfl
  | cons line after =>
    rw [List.findIdx?_cons, hafter line rfl]
    simp

/-- The block is put where the tags begin. -/
theorem showsRows_withCode (hrows : ∀ row ∈ rows, startsWith "@" row = false) (kept : List String) :
    ∃ before after, ShowsRows kept rows
      (withCode (kept.take ((kept.findIdx? isOtherTag).getD kept.length)) rows
        (kept.drop ((kept.findIdx? isOtherTag).getD kept.length))) before after := by
  have hfront : kept.take ((kept.findIdx? isOtherTag).getD kept.length) =
      kept.takeWhile (!isOtherTag ·) := by
    rw [← List.findIdx_eq_getD_findIdx?, List.takeWhile_eq_take_findIdx_not]
    simp
  have hback : kept.drop ((kept.findIdx? isOtherTag).getD kept.length) =
      kept.dropWhile (!isOtherTag ·) := by
    rw [← List.findIdx_eq_getD_findIdx?, List.dropWhile_eq_drop_findIdx_not]
    simp
  have hsplit : kept.takeWhile (!isOtherTag ·) ++ kept.dropWhile (!isOtherTag ·) = kept :=
    List.takeWhile_append_dropWhile
  have hplain : ∀ line ∈ kept.takeWhile (!isOtherTag ·), isOtherTag line = false := fun line h => by
    simpa using List.mem_takeWhile_imp h
  have htag : ∀ line ∈ (kept.dropWhile (!isOtherTag ·)).head?, isOtherTag line = true := by
    intro line hline
    have hnot := List.head?_dropWhile_not (!isOtherTag ·) kept
    rw [hline] at hnot
    simpa using hnot
  rw [hfront, hback]
  generalize kept.takeWhile (!isOtherTag ·) = before at *
  generalize kept.dropWhile (!isOtherTag ·) = after at *
  refine ⟨dropEmptyEnd before, after, withCode_eq before rows after, getLast?_dropEmptyEnd before,
    ?_, ?_⟩
  · rw [DocComment.firstTagLine?, withCode_eq]
    refine findIdx?_append_tags ?_ htag
    simp only [List.forall_mem_append]
    refine ⟨⟨⟨fun line h => hplain line (mem_dropEmptyEnd h), ?_⟩, ?_⟩, ?_⟩
    · exact fun line h => isOtherTag_eq_false (startsWith_gap _ line h)
    · exact fun line h => isOtherTag_eq_false (startsWith_codeBlock hrows line h)
    · exact fun line h => isOtherTag_eq_false (startsWith_gap _ line h)
  · obtain ⟨n, hn⟩ := exists_dropEmptyEnd before
    exact ⟨n, by rw [← hn, hsplit]⟩

/-! ## The documentation of a method -/

/-- What the documentation of a method says, and where its examples stand. -/
structure Documents (f : TemplateFunction) (rows lines : List String) : Prop where
  paramTags : (DocComment.mk lines).paramTags = f.doc.paramTags
  deprecated : (DocComment.mk lines).deprecated? = f.doc.deprecated?
  returned : (DocComment.mk lines).returnTag?.map ReturnTag.meaning =
    f.doc.returnTag?.map fun tag => (libraryTypes f tag.types, tag.description)
  layout : ∃ kept, f.doc.AgreesOffReturn kept ∧
    if rows = [] then lines = kept else ∃ before after, ShowsRows kept rows lines before after

/-- Lines with the tags of a rewritten comment say what it says. -/
theorem Rewritten.documents {f : TemplateFunction} {kept lines : List String} (h : Rewritten f kept)
    (hcontents : ∀ name, contents name lines = contents name kept)
    (hlayout : if rows = [] then lines = kept else
      ∃ before after, ShowsRows kept rows lines before after) : Documents f rows lines where
  paramTags := by rw [paramTags_eq, paramTags_eq, hcontents, h.param]
  deprecated := by rw [deprecated?_eq, deprecated?_eq, hcontents, h.deprecated]
  returned := by rw [map_meaning_returnTag?, hcontents, h.returned]
  layout := ⟨kept, h.agrees, hlayout⟩

theorem curriedDoc_eq_none_iff {f : TemplateFunction} :
    curriedDoc f rows = none ↔ f.doc.lines = [] ∧ rows = [] := by
  unfold curriedDoc
  split
  · rename_i hempty
    simpa [DocComment.isEmpty] using hempty
  · rename_i hempty
    simp only
    split <;> simpa [DocComment.isEmpty] using hempty

/-- **The documentation of a library method** is that of the template, which may say more of what is
returned, with the example rows before the tags. There is none when there is nothing to say. -/
theorem curriedDoc_law (f : TemplateFunction) (hrows : ∀ row ∈ rows, startsWith "@" row = false) :
    (curriedDoc f rows = none ↔ f.doc.lines = [] ∧ rows = []) ∧
      ∀ lines, curriedDoc f rows = some lines → Documents f rows lines := by
  refine ⟨curriedDoc_eq_none_iff, fun lines h => ?_⟩
  have hkept := rewritten_returnRewritten f
  unfold curriedDoc at h
  split at h
  · cases h
  · simp only at h
    split at h
    · rename_i hnil
      obtain rfl := Option.some.inj h
      refine hkept.documents (fun _ => rfl) ?_
      rw [if_pos (List.isEmpty_iff.1 hnil)]
    · rename_i hnil
      obtain rfl := Option.some.inj h
      refine hkept.documents (fun name => ?_) ?_
      · rw [contents_withCode hrows, List.take_append_drop]
      · rw [if_neg (by simpa using hnil), ← hkept.firstTag]
        exact showsRows_withCode hrows _

/-- A function with a notice above its summary and empty lines above its tag. -/
def subtract : TemplateFunction where
  definition :=
    { name := "sub"
      doc := some "/**\n * @deprecated\n * Subtracts.\n *\n *\n * @return\tint  x\n */"
      params := [{ name := "x" }, { name := "y" }] }

theorem doc_subtract :
    subtract.doc = ⟨["@deprecated", "Subtracts.", "", "", "@return\tint  x"]⟩ := by
  cbv

theorem curriedDoc_law_subtract :
    let rows := ["P::sub(3, 2); // => 1"]
    let lines := ["@deprecated", "Subtracts.", "", "```php", "P::sub(3, 2); // => 1", "```", "",
      "@return callable|int  x"]
    (∀ row ∈ rows, startsWith "@" row = false) ∧ curriedDoc subtract rows = some lines ∧
      Documents subtract rows lines := by
  intro rows lines
  have hrows : ∀ row ∈ rows, startsWith "@" row = false := List.forall_mem_singleton.2 rfl
  have htag : subtract.doc.returnTag? = some ⟨4, "int", "x"⟩ := by
    rw [doc_subtract]
    decide +kernel
  have hreturned : subtract.returnsCallable = false := by
    rw [← Bool.not_eq_true, returnsCallable_iff htag]
    decide +kernel
  have hfirst : subtract.doc.firstTagLine? = some 4 := by
    rw [doc_subtract]
    decide +kernel
  have hline : withCallable "@return\tint  x" = "@return callable|int  x" := by decide +kernel
  have hrewritten : returnRewritten subtract =
      ["@deprecated", "Subtracts.", "", "", "@return callable|int  x"] := by
    rw [returnRewritten, htag, hreturned, doc_subtract, ← hline]
    rfl
  have hdoc : curriedDoc subtract rows = some lines := by
    rw [curriedDoc, hrewritten, hfirst, doc_subtract]
    rfl
  exact ⟨hrows, hdoc, (curriedDoc_law subtract hrows).2 _ hdoc⟩

end Api

end CurryGen

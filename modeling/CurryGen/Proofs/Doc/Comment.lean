import CurryGen.Proofs.Artifact.Doc

/-!
# What documentation comments say

A comment that was read can be written again at any indentation, and it still says the same lines.
What the lines say is read off them by four readers, each of which looks for tags of its own, and
none of which is misled by an `@deprecated` line where it expects something else.

* `DocComment.IsRead`: the shape of the lines of every comment that was read.
* `DocComment.read_written`: reading, writing and reading again.
* `DocComment.tagContent?_eq_some_iff`: which lines are tags.
* `DocComment.contents`: what the lines of one tag say, which is all that the readers of tags need.
* `DocComment.insertLine_deprecated`: what a further `@deprecated` line changes, anywhere.
-/

namespace CurryGen

open Code Scan Text

theorem Text.after?_eq_some_iff {front s rest : String} :
    after? front s = some rest ↔ s = front ++ rest := by
  constructor
  · intro h
    unfold after? at h
    split at h
    · rename_i hfront
      obtain ⟨cs, hcs⟩ := List.isPrefixOf_iff_prefix.1 hfront
      rw [← hcs, ← String.length_toList, List.drop_left] at h
      obtain rfl := Option.some.inj h
      rw [← String.toList_inj, String.toList_append, String.toList_ofList, hcs]
    · cases h
  · rintro rfl
    have h := after?_append front rest.toList
    rwa [← String.toList_append, String.ofList_toList, String.ofList_toList] at h

namespace ReturnTag

/-- The return tag that the content of a line makes. -/
def of? (line : Nat) (content : String) : Option ReturnTag :=
  match words content with
  | [] => none
  | primary :: rest => some ⟨line, primary, " ".intercalate rest⟩

/-- What a return tag says, wherever it stands. -/
def meaning (tag : ReturnTag) : List String × String := (tag.types, tag.description)

/-- The content says the same on every line. -/
theorem of?_place (g : Nat → Nat) (line : Nat) (content : String) :
    of? (g line) content = (of? line content).map fun tag => { tag with line := g tag.line } := by
  unfold of?
  split <;> rfl

end ReturnTag

namespace DocComment

/-! ## Writing what was read -/

/-- The shape of the lines of a comment: each of them one line of text without blanks at its end,
and no empty line around them. -/
structure IsRead (lines : List String) : Prop where
  unbroken : ∀ line ∈ lines, '\n' ∉ line.toList
  trimmed : ∀ line ∈ lines, trimEnd line = line
  framed : dropEmptyEnds lines = lines

theorem trimEnd_idem (s : String) : trimEnd (trimEnd s) = trimEnd s := by
  simp [trimEnd, dropTrailingBlanks_idem]

theorem dropWhile_eq_self_of_isPrefix {α : Type} {p : α → Bool} {l m : List α} (h : l <+: m)
    (hm : m.dropWhile p = m) : l.dropWhile p = l := by
  obtain ⟨rest, rfl⟩ := h
  rw [List.dropWhile_eq_self_iff] at hm ⊢
  intro hl
  have hfirst := hm (Nat.lt_of_lt_of_le hl (List.sublist_append_left l rest).length_le)
  rwa [List.getElem_append_left hl] at hfirst

theorem dropEmptyEnds_idem (lines : List String) :
    dropEmptyEnds (dropEmptyEnds lines) = dropEmptyEnds lines := by
  have hfront : (dropEmptyEnds lines).dropWhile (· == "") = dropEmptyEnds lines :=
    dropWhile_eq_self_of_isPrefix (List.rdropWhile_prefix _ _) (List.dropWhile_idempotent _ _)
  show ((dropEmptyEnds lines).dropWhile (· == "")).rdropWhile (· == "") = dropEmptyEnds lines
  rw [hfront]
  exact List.rdropWhile_idempotent _ _

theorem exists_lines_read (raw : String) : ∃ v, (read raw).lines =
    dropEmptyEnds ((Text.lines v).map fun line => undecorate (String.ofList line)) := by
  simp only [read]
  exact ⟨_, rfl⟩

theorem isRead_read (raw : String) : IsRead (read raw).lines := by
  obtain ⟨v, hv⟩ := exists_lines_read raw
  rw [hv]
  have hline : ∀ line ∈ dropEmptyEnds
      ((Text.lines v).map fun line => undecorate (String.ofList line)),
      ∃ piece, '\n' ∉ piece ∧ line = undecorate (String.ofList piece) := by
    intro line hline
    obtain ⟨piece, hpiece, rfl⟩ := List.mem_map.1 (mem_of_mem_dropEmptyEnds hline)
    exact ⟨piece, notMem_of_mem_lines hpiece, rfl⟩
  refine ⟨fun line h => ?_, fun line h => ?_, dropEmptyEnds_idem _⟩
  · obtain ⟨piece, hpiece, rfl⟩ := hline line h
    have hpart := undecorate_isInfix (String.ofList piece)
    rw [String.toList_ofList] at hpart
    exact fun hmem => hpiece (hpart.subset hmem)
  · obtain ⟨piece, -, rfl⟩ := hline line h
    exact trimEnd_idem _

/-- Lines as those of a comment are read as they were written. -/
theorem IsRead.read_docText {lines : List String} (h : IsRead lines)
    (hunclosed : ∀ line ∈ lines, ¬"*/".toList <:+: line.toList) (depth : Nat) :
    DocComment.read (docText depth lines) = ⟨lines⟩ := by
  have hlines : ∀ line ∈ lines, IsCommentLine line := fun line hline =>
    ⟨h.unbroken line hline, hunclosed line hline⟩
  have htrim : lines.map trimEnd = lines :=
    (List.map_congr_left h.trimmed).trans (List.map_id' lines)
  rw [DocComment.read_docText hlines depth, htrim, h.framed]

/-- **A comment that is written again says the same.** Its text is one documentation comment at any
indentation, and its lines are those that were read from the first. -/
theorem read_written {source : List Char} {run : Run} (h : scan source = .ok run) {t : Placed}
    (ht : t ∈ run) (hdoc : t.isDoc = true) (depth : Nat) :
    ∃ run' text,
      scan (unlines (linesFrom depth (docMarks (some (read t.text).lines)))).toList = .ok run' ∧
      run'.tokens = [⟨.doc, text⟩] ∧ (read text).lines = (read t.text).lines := by
  have hscans : Scans source run.tokens := scans_iff.2 ⟨run, h, rfl⟩
  have hstands : Stands t.toToken [] := hscans.stands _ (List.mem_map_of_mem ht)
  have hunclosed := unclosed_read hstands (eq_of_beq hdoc)
  have hone : IsOneComment depth (read t.text).lines := isOneComment_iff.2 hunclosed
  obtain ⟨run', hrun', htokens⟩ := hone
  refine ⟨run', _, hrun', htokens, ?_⟩
  rw [(isRead_read t.text).read_docText hunclosed]

/-- Lines that begin with blanks, stars and slashes, and a paragraph of its own. -/
theorem read_written_decorated : ∃ run t run' text,
    scan "<?php /**   \n*\n\t*  * a\n *\n / b\t*\n\n * * /c\t\n*\n*/ f".toList = .ok run ∧
    t ∈ run ∧ t.isDoc = true ∧ (read t.text).lines = [" * a", "", "/ b\t*", "", "* /c"] ∧
    scan (unlines (linesFrom 1 (docMarks (some (read t.text).lines)))).toList = .ok run' ∧
      run'.tokens = [⟨.doc, text⟩] ∧ (read text).lines = (read t.text).lines := by
  have hscan : scan "<?php /**   \n*\n\t*  * a\n *\n / b\t*\n\n * * /c\t\n*\n*/ f".toList =
      .ok [⟨⟨.doc, "/**   \n*\n\t*  * a\n *\n / b\t*\n\n * * /c\t\n*\n*/"⟩, 6⟩,
        ⟨⟨.name, "f"⟩, 48⟩] := by
    cbv
  obtain ⟨run', text, hrun', htokens, hlines⟩ := read_written hscan List.mem_cons_self rfl 1
  exact ⟨_, _, run', text, hscan, List.mem_cons_self, rfl, by cbv, hrun', htokens, hlines⟩

/-! ## Tags -/

section

variable {tag other line : String}

/-- Whether the name of a tag ends before a text. -/
def EndsName (rest : String) : Prop := rest.toList.head?.all isBlank = true

instance : DecidablePred EndsName := fun _ => inferInstanceAs (Decidable (_ = true))

/-- A tag is followed by a blank, or by nothing. -/
theorem tagContent?_eq_some_iff {content : String} : tagContent? tag line = some content ↔
    ∃ rest, line = "@" ++ tag ++ rest ∧ EndsName rest ∧ content = trim rest := by
  unfold tagContent? EndsName
  constructor
  · intro h
    split at h
    · cases h
    · rename_i rest hrest
      refine ⟨rest, after?_eq_some_iff.1 hrest, ?_⟩
      split at h
      · rename_i hnil
        simp only [Option.some.injEq] at h
        subst h
        rw [trim, hnil]
        exact ⟨by simp, rfl⟩
      · rename_i c cs hcons
        split at h
        · rename_i hblank
          simp only [Option.some.injEq] at h
          simp [hcons, hblank, h]
        · cases h
  · rintro ⟨rest, hline, hends, rfl⟩
    rw [after?_eq_some_iff.2 hline]
    simp only
    split
    · rename_i hnil
      rw [trim, hnil]
      rfl
    · rename_i c cs hcons
      rw [if_pos (by simpa [hcons] using hends)]

/-- A line is a tag of one name only, unless one name begins with the other. -/
theorem tagContent?_eq_none (h : (tagContent? other line).isSome = true)
    (hname : ¬tag.toList <+: other.toList) (hother : ¬other.toList <+: tag.toList) :
    tagContent? tag line = none := by
  obtain ⟨content, hcontent⟩ := Option.isSome_iff_exists.1 h
  obtain ⟨rest, hline, -⟩ := tagContent?_eq_some_iff.1 hcontent
  cases htag : tagContent? tag line with
  | none => rfl
  | some content' =>
    obtain ⟨rest', hline', -⟩ := tagContent?_eq_some_iff.1 htag
    have hsame : tag.toList ++ rest'.toList = other.toList ++ rest.toList := by
      have htexts := congrArg String.toList (hline'.symm.trans hline)
      simpa using htexts
    rcases List.prefix_or_prefix_of_prefix (List.prefix_append _ _)
        (hsame ▸ List.prefix_append other.toList rest.toList) with hin | hin
    · exact absurd hin hname
    · exact absurd hin hother

theorem startsWith_of_isSome (h : (tagContent? tag line).isSome = true) :
    startsWith "@" line = true := by
  obtain ⟨content, hcontent⟩ := Option.isSome_iff_exists.1 h
  obtain ⟨rest, rfl, -⟩ := tagContent?_eq_some_iff.1 hcontent
  simp [startsWith]

theorem tagContent?_eq_none_of_not (h : startsWith "@" line = false) :
    tagContent? tag line = none := by
  cases hline : tagContent? tag line with
  | none => rfl
  | some content =>
    rw [startsWith_of_isSome (by rw [hline]; rfl)] at h
    cases h

theorem isOtherTag_of_return {content : String} (h : tagContent? "return" line = some content) :
    isOtherTag line = true := by
  have hsome : (tagContent? "return" line).isSome = true := by rw [h]; rfl
  rw [isOtherTag, startsWith_of_isSome hsome, isDeprecatedTag,
    tagContent?_eq_none hsome (by decide) (by decide)]
  rfl

theorem isOtherTag_eq_false (h : startsWith "@" line = false) :
    isOtherTag line = false := by
  rw [isOtherTag, h]
  rfl

end

/-! ## What tags say -/

/-- What the lines that are tags of a name say, in order. -/
def contents (tag : String) (lines : List String) : List String := lines.filterMap (tagContent? tag)

theorem contents_append (name : String) (a b : List String) :
    contents name (a ++ b) = contents name a ++ contents name b :=
  List.filterMap_append

theorem contents_cons_of_none {name line : String} (h : tagContent? name line = none)
    (lines : List String) : contents name (line :: lines) = contents name lines :=
  List.filterMap_cons_none h

theorem paramTags_eq (doc : DocComment) : doc.paramTags =
    (contents "param" doc.lines).filterMap fun content => paramTag? (words content) := by
  rw [contents, List.filterMap_filterMap]
  rfl

theorem deprecated?_eq (doc : DocComment) :
    doc.deprecated? = (contents "deprecated" doc.lines).head? := by
  rw [contents, List.head?_filterMap]
  rfl

theorem findSome?_eq_of_findIdx? {α β : Type} {g : α → Option β} {l : List α} {i : Nat}
    (h : l.findIdx? (fun a => (g a).isSome) = some i) : l.findSome? g = l[i]?.bind g := by
  induction l generalizing i with
  | nil => cases h
  | cons a l ih =>
    rw [List.findIdx?_cons] at h
    cases ha : g a with
    | some b =>
      obtain rfl : 0 = i := by simpa [ha] using h
      simp [ha]
    | none =>
      simp only [ha, Option.isSome_none, Bool.false_eq_true, if_false] at h
      obtain ⟨j, hj, rfl⟩ := Option.map_eq_some_iff.1 h
      simp [ha, ih hj]

/-- The return tag is made of the first of its lines. -/
theorem returnTag?_eq (doc : DocComment) : doc.returnTag? =
    (doc.lines.findIdx? fun line => (tagContent? "return" line).isSome).bind fun i =>
      (doc.lines.findSome? (tagContent? "return")).bind (ReturnTag.of? i) := by
  unfold returnTag?
  split
  · rename_i hnone
    rw [hnone]
    rfl
  · rename_i i hi
    have hcontent := findSome?_eq_of_findIdx? hi
    obtain ⟨hlength, hline, -⟩ := List.findIdx?_eq_some_iff_getElem.1 hi
    obtain ⟨content, hsome⟩ := Option.isSome_iff_exists.1 hline
    have hget : (doc.lines[i]?.bind (tagContent? "return")) = some content := by
      rw [List.getElem?_eq_getElem hlength, Option.bind_some, hsome]
    rw [hi, hcontent, hget]
    rfl

/-- The return tag in its place among the lines. -/
theorem exists_of_returnTag? {doc : DocComment} {tag : ReturnTag} (h : doc.returnTag? = some tag) :
    ∃ before line after content, doc.lines = before ++ line :: after ∧ before.length = tag.line ∧
      contents "return" before = [] ∧ tagContent? "return" line = some content ∧
      ReturnTag.of? 0 content = some { tag with line := 0 } := by
  rw [returnTag?_eq] at h
  obtain ⟨i, hi, h⟩ := Option.bind_eq_some_iff.1 h
  obtain ⟨content, hcontent, htag⟩ := Option.bind_eq_some_iff.1 h
  obtain ⟨hlength, hline, hbefore⟩ := List.findIdx?_eq_some_iff_getElem.1 hi
  rw [findSome?_eq_of_findIdx? hi, List.getElem?_eq_getElem hlength, Option.bind_some] at hcontent
  rw [ReturnTag.of?_place (fun _ => i) 0] at htag
  obtain ⟨tag', htag', rfl⟩ := Option.map_eq_some_iff.1 htag
  refine ⟨doc.lines.take i, doc.lines[i], doc.lines.drop (i + 1), content, ?_, ?_, ?_, hcontent, ?_⟩
  · rw [← List.drop_eq_getElem_cons, List.take_append_drop]
  · simp
    omega
  · rw [contents, List.filterMap_eq_nil_iff]
    intro line hmem
    obtain ⟨j, hj, rfl⟩ := List.getElem_of_mem hmem
    rw [List.length_take] at hj
    rw [List.getElem_take]
    simpa using hbefore j (by omega)
  · rw [htag']
    unfold ReturnTag.of? at htag'
    split at htag'
    · cases htag'
    · obtain rfl := Option.some.inj htag'
      rfl

theorem map_meaning_returnTag? (doc : DocComment) : doc.returnTag?.map ReturnTag.meaning =
    (contents "return" doc.lines).head?.bind fun content =>
      (ReturnTag.of? 0 content).map ReturnTag.meaning := by
  rw [returnTag?_eq, contents, List.head?_filterMap]
  cases hi : doc.lines.findIdx? fun line => (tagContent? "return" line).isSome with
  | none =>
    have hnone : doc.lines.findSome? (tagContent? "return") = none := by
      rw [List.findSome?_eq_none_iff]
      rw [List.findIdx?_eq_none_iff] at hi
      exact fun line hline => by simpa using hi line hline
    rw [hnone]
    rfl
  | some i =>
    cases doc.lines.findSome? (tagContent? "return") with
    | none => rfl
    | some content =>
      rw [Option.bind_some, Option.bind_some, Option.bind_some, ReturnTag.of?_place (fun _ => i) 0]
      cases ReturnTag.of? 0 content <;> rfl

/-! ## Inserting a line -/

section

variable {α β : Type} {l : List α} {i : Nat} {a : α}

theorem insertIdx_eq_append (hi : i ≤ l.length) : l.insertIdx i a = l.take i ++ a :: l.drop i := by
  induction l generalizing i with
  | nil =>
    obtain rfl : i = 0 := by simpa using hi
    rfl
  | cons b l ih =>
    cases i with
    | zero => rfl
    | succ i => simp [ih (by simpa using hi)]

/-- The place of a line after another one is inserted at `i`. -/
def movedPast (i n : Nat) : Nat := if i ≤ n then n + 1 else n

theorem findIdx?_insertIdx {p : α → Bool} (hi : i ≤ l.length) (ha : p a = false) :
    (l.insertIdx i a).findIdx? p = (l.findIdx? p).map (movedPast i) := by
  induction l generalizing i with
  | nil =>
    obtain rfl : i = 0 := by simpa using hi
    simp [ha]
  | cons b l ih =>
    cases i with
    | zero =>
      rw [List.insertIdx_zero, List.findIdx?_cons, ha]
      rfl
    | succ i =>
      rw [List.insertIdx_succ_cons, List.findIdx?_cons, List.findIdx?_cons, ih (by simpa using hi)]
      split
      · simp [movedPast]
      · cases l.findIdx? p with
        | none => rfl
        | some n =>
          simp only [movedPast, Option.map_some, Option.some.injEq]
          split <;> split <;> omega

theorem findSome?_insertIdx {g : α → Option β} (hi : i ≤ l.length) (ha : g a = none) :
    (l.insertIdx i a).findSome? g = l.findSome? g := by
  conv => rhs; rw [← List.take_append_drop i l]
  rw [insertIdx_eq_append hi, List.findSome?_append, List.findSome?_append, List.findSome?_cons, ha]

theorem filterMap_insertIdx {g : α → Option β} (hi : i ≤ l.length) (ha : g a = none) :
    (l.insertIdx i a).filterMap g = l.filterMap g := by
  conv => rhs; rw [← List.take_append_drop i l]
  rw [insertIdx_eq_append hi, List.filterMap_append, List.filterMap_append,
    List.filterMap_cons_none ha]

end

variable {doc : DocComment} {i : Nat} {rest : String}

/-- The comment with a further line. -/
def insertLine (doc : DocComment) (i : Nat) (line : String) : DocComment :=
  ⟨doc.lines.insertIdx i line⟩

theorem tagContent?_deprecated (h : EndsName rest) :
    tagContent? "deprecated" ("@deprecated" ++ rest) = some (trim rest) :=
  tagContent?_eq_some_iff.2 ⟨rest, rfl, h, rfl⟩

theorem isDeprecatedTag_append (h : EndsName rest) :
    isDeprecatedTag ("@deprecated" ++ rest) = true := by
  rw [isDeprecatedTag, tagContent?_deprecated h]
  rfl

/-- Which lines are kept in the summary does not depend on `@deprecated` lines. -/
theorem summary_insertLine (hi : i ≤ doc.lines.length) {line : String}
    (h : isDeprecatedTag line = true) : (doc.insertLine i line).summary = doc.summary := by
  have hother : (!isOtherTag line) = true := by simp [isOtherTag, h]
  unfold summary insertLine
  conv => rhs; rw [← List.take_append_drop i doc.lines]
  rw [insertIdx_eq_append hi, List.takeWhile_append, List.takeWhile_append,
    List.takeWhile_cons_of_pos (by simpa using hother)]
  split
  · rw [List.filter_append, List.filter_append, List.filter_cons_of_neg (by simp [h])]
  · rfl

theorem deprecated?_insertLine (hi : i ≤ doc.lines.length) (h : EndsName rest) :
    (doc.insertLine i ("@deprecated" ++ rest)).deprecated? =
      if ∃ line ∈ doc.lines.take i, isDeprecatedTag line = true then doc.deprecated?
      else some (trim rest) := by
  have hlines : doc.deprecated? =
      ((doc.lines.take i).findSome? (tagContent? "deprecated")).or
        ((doc.lines.drop i).findSome? (tagContent? "deprecated")) := by
    rw [← List.findSome?_append, List.take_append_drop]
    rfl
  have hinserted : (doc.insertLine i ("@deprecated" ++ rest)).deprecated? =
      ((doc.lines.take i).findSome? (tagContent? "deprecated")).or (some (trim rest)) := by
    rw [deprecated?, insertLine, insertIdx_eq_append hi, List.findSome?_append, List.findSome?_cons,
      tagContent?_deprecated h]
  cases hearlier : (doc.lines.take i).findSome? (tagContent? "deprecated") with
  | none =>
    have hnone : ¬∃ line ∈ doc.lines.take i, isDeprecatedTag line = true := by
      rintro ⟨line, hline, htag⟩
      rw [isDeprecatedTag, List.findSome?_eq_none_iff.1 hearlier line hline] at htag
      cases htag
    rw [if_neg hnone, hinserted, hearlier, Option.none_or]
  | some text =>
    obtain ⟨line, hline, htext⟩ := List.exists_of_findSome?_eq_some hearlier
    have hsome : ∃ line ∈ doc.lines.take i, isDeprecatedTag line = true :=
      ⟨line, hline, by rw [isDeprecatedTag, htext]; rfl⟩
    rw [if_pos hsome, hinserted, hlines, hearlier, Option.some_or, Option.some_or]

/-- **`@deprecated` may stand anywhere.** A further one leaves the summary and what the other tags
say as they are, moves the tags at and after its place down by one line, and is the one that counts
unless another stands before it. -/
theorem insertLine_deprecated (hi : i ≤ doc.lines.length) (h : EndsName rest) :
    let inserted := doc.insertLine i ("@deprecated" ++ rest)
    inserted.summary = doc.summary ∧
    inserted.paramTags = doc.paramTags ∧
    inserted.returnTag? =
      doc.returnTag?.map (fun tag => { tag with line := movedPast i tag.line }) ∧
    inserted.firstTagLine? = doc.firstTagLine?.map (movedPast i) ∧
    inserted.deprecated? =
      if ∃ line ∈ doc.lines.take i, isDeprecatedTag line = true then doc.deprecated?
      else some (trim rest) := by
  have hdeprecated := isDeprecatedTag_append h
  have hparam : tagContent? "param" ("@deprecated" ++ rest) = none :=
    tagContent?_eq_none hdeprecated (by decide) (by decide)
  have hreturn : tagContent? "return" ("@deprecated" ++ rest) = none :=
    tagContent?_eq_none hdeprecated (by decide) (by decide)
  refine ⟨summary_insertLine hi hdeprecated, ?_, ?_, ?_, deprecated?_insertLine hi h⟩
  · exact filterMap_insertIdx hi (by rw [hparam]; rfl)
  · rw [returnTag?_eq, returnTag?_eq, insertLine, findSome?_insertIdx hi hreturn,
      findIdx?_insertIdx hi (by rw [hreturn]; rfl)]
    cases doc.lines.findIdx? fun line => (tagContent? "return" line).isSome with
    | none => rfl
    | some n =>
      cases doc.lines.findSome? (tagContent? "return") with
      | none => rfl
      | some content => exact ReturnTag.of?_place (movedPast i) n content
  · exact findIdx?_insertIdx hi (by simp [isOtherTag, hdeprecated])

/-- A line in the middle of the summary, between two paragraphs, with another one further down. -/
theorem insertLine_deprecated_between :
    let doc : DocComment := ⟨["Maps.", "", "@deprecated Use each.", "Keeps keys.",
      "@param array $a x", "@return array|int all"]⟩
    1 ≤ doc.lines.length ∧ EndsName "\tSince 2 " ∧
    (doc.insertLine 1 "@deprecated\tSince 2 ").summary = ["Maps.", "", "Keeps keys."] ∧
    (doc.insertLine 1 "@deprecated\tSince 2 ").paramTags = [⟨"array", "a", "x"⟩] ∧
    (doc.insertLine 1 "@deprecated\tSince 2 ").returnTag? = some ⟨6, "array|int", "all"⟩ ∧
    (doc.insertLine 1 "@deprecated\tSince 2 ").firstTagLine? = some 5 ∧
    (doc.insertLine 1 "@deprecated\tSince 2 ").deprecated? = some "Since 2" := by
  intro doc
  have hi : 1 ≤ doc.lines.length := by decide
  have hends : EndsName "\tSince 2 " := by decide +kernel
  obtain ⟨hsummary, hparams, hreturn, hfirst, hdeprecated⟩ := insertLine_deprecated hi hends
  refine ⟨hi, hends, hsummary.trans ?_, hparams.trans ?_, hreturn.trans ?_, hfirst.trans ?_,
    hdeprecated.trans ?_⟩
  · decide +kernel
  · decide +kernel
  · decide +kernel
  · decide +kernel
  · decide +kernel

end DocComment

end CurryGen

import CurryGen.Doc.Comment
import CurryGen.Proofs.Code.Layout

/-!
# Comments in laid out text

A comment whose lines do not end it is passed over, or read as one documentation comment, whatever
its indentation. The lines of a documentation comment are read again without the blanks at their
ends.

* `IsCommentLine`: lines that can stand in a comment.
* `stands_docText_iff`: which lines end a documentation comment too early.
* `Lays.comment`, `Lays.docComment`: the tokens of a comment.
* `DocComment.read_docText`: the lines of a documentation comment.
-/

namespace CurryGen

open Scan Text

/-! ## Where comments end -/

namespace Scan

theorem closeComment_eq_none_iff {u : List Char} :
    closeComment u = none ↔ ¬['*', '/'] <:+: u := by
  induction u with
  | nil => simp [closeComment]
  | cons c u ih =>
    rw [List.infix_cons_iff, not_or]
    by_cases hclose : c = '*' ∧ u.head? = some '/'
    · obtain ⟨rest, rfl⟩ := List.head?_eq_some_iff.1 hclose.2
      rw [closeComment_close hclose]
      refine ⟨fun h => absurd h (Option.some_ne_none _), fun h => absurd ?_ h.1⟩
      rw [hclose.1]
      exact ⟨rest, rfl⟩
    · rw [closeComment_cons hclose, Option.map_eq_none_iff, ih]
      refine ⟨fun h => ⟨?_, h⟩, And.right⟩
      rintro ⟨rest, hrest⟩
      obtain ⟨rfl, rfl⟩ := List.cons.inj hrest
      exact hclose ⟨rfl, rfl⟩

/-- A line that does not end a comment takes no part in finding its end. -/
theorem closeComment_line {u : List Char} (h : closeComment u = none) (y : List Char) :
    closeComment (u ++ '\n' :: y) = (closeComment y).map (· + (u ++ ['\n']).length) := by
  induction u with
  | nil => exact closeComment_cons (by simp)
  | cons c u ih =>
    by_cases hclose : c = '*' ∧ u.head? = some '/'
    · rw [closeComment_close hclose] at h
      cases h
    · have hopen : ¬(c = '*' ∧ (u ++ '\n' :: y).head? = some '/') := by
        cases u with
        | nil => simp
        | cons d u => exact hclose
      rw [closeComment_cons hclose, Option.map_eq_none_iff] at h
      rw [List.cons_append, closeComment_cons hopen, ih h, Option.map_map]
      rfl

end Scan

namespace Code

variable {depth : Nat} {lines : List String}

/-- A line that can stand in a comment. -/
structure IsCommentLine (line : String) : Prop where
  unbroken : '\n' ∉ line.toList
  unclosed : ¬"*/".toList <:+: line.toList

instance : DecidablePred IsCommentLine := fun line =>
  decidable_of_iff ('\n' ∉ line.toList ∧ ¬"*/".toList <:+: line.toList)
    ⟨fun ⟨unbroken, unclosed⟩ => ⟨unbroken, unclosed⟩, fun h => ⟨h.unbroken, h.unclosed⟩⟩

/-- A line of a comment as it is written. -/
def starred (line : String) : String := if line = "" then " *" else " * " ++ line

/-- The text of a comment after its first line. -/
def commentRest (depth : Nat) (lines : List String) : List Char :=
  ("\n".intercalate ((lines.map starred ++ [" */"]).map (indented depth))).toList

/-- The text of a documentation comment, whose first line is not indented. -/
def docText (depth : Nat) (lines : List String) : String :=
  String.ofList ('/' :: '*' :: '*' :: '\n' :: commentRest depth lines)

theorem commentRest_nil (depth : Nat) :
    ∃ b, commentRest depth [] = b ++ [' ', '*', '/'] ∧ ∀ c ∈ b, c = ' ' := by
  obtain ⟨b, hline, hb⟩ := exists_indented depth " */"
  exact ⟨b, by simpa [commentRest] using hline, hb⟩

theorem commentRest_cons (depth : Nat) (line : String) (lines : List String) :
    ∃ b, commentRest depth (line :: lines) =
      b ++ ((starred line).toList ++ '\n' :: commentRest depth lines) ∧ ∀ c ∈ b, c = ' ' := by
  obtain ⟨b, hline, hb⟩ := exists_indented depth (starred line)
  refine ⟨b, ?_, hb⟩
  rw [commentRest, List.map_cons, List.cons_append, List.map_cons,
    toList_intercalate_cons (by simp), hline, List.append_assoc]
  rfl

theorem closeComment_starred_eq_none_iff {line : String} :
    closeComment (starred line).toList = none ↔ ¬"*/".toList <:+: line.toList := by
  have hline : closeComment line.toList = none ↔ ¬"*/".toList <:+: line.toList :=
    closeComment_eq_none_iff
  unfold starred
  split
  · rename_i hempty
    rw [hempty]
    decide
  · have hstart : (" * " ++ line).toList = ' ' :: '*' :: ' ' :: line.toList := String.toList_append
    rw [hstart, closeComment_cons (by simp), closeComment_cons (by simp), closeComment_cons (by simp),
      Option.map_eq_none_iff, Option.map_eq_none_iff, Option.map_eq_none_iff, hline]

/-- The comment ends where its text ends, unless a line ends it before. -/
theorem closeComment_commentRest_iff :
    closeComment (commentRest depth lines) = some (commentRest depth lines).length ↔
      ∀ line ∈ lines, ¬"*/".toList <:+: line.toList := by
  induction lines with
  | nil =>
    obtain ⟨b, hrest, hb⟩ := commentRest_nil depth
    have hend : closeComment [' ', '*', '/'] = some 3 := rfl
    rw [hrest, closeComment_blanks (Widened.isBlank_of_spaces hb), hend, List.length_append,
      Nat.add_comm b.length]
    exact iff_of_true rfl (List.forall_mem_nil _)
  | cons line lines ih =>
    obtain ⟨b, hrest, hb⟩ := commentRest_cons depth line lines
    rw [List.forall_mem_cons, ← ih, ← closeComment_starred_eq_none_iff, hrest,
      closeComment_blanks (Widened.isBlank_of_spaces hb), List.length_append, List.length_append]
    cases hline : closeComment (starred line).toList with
    | none =>
      -- the end is that of the rest, so both sides ask whether it is at the end of the rest
      rw [closeComment_line hline, Option.map_map]
      cases closeComment (commentRest depth lines) with
      | none => simp
      | some n =>
        simp only [Option.map_some, Function.comp_apply, Option.some.injEq, List.length_append,
          List.length_cons, List.length_nil, true_and]
        omega
    | some n =>
      -- the comment ends within the line, and so before its text does
      have hle := closeComment_le_length hline
      rw [closeComment_append hline, Option.map_some, Option.some.injEq, List.length_cons]
      refine iff_of_false (fun h => ?_) fun h => absurd h.1 (Option.some_ne_none n)
      omega

theorem closeComment_commentRest (h : ∀ line ∈ lines, IsCommentLine line) :
    closeComment (commentRest depth lines) = some (commentRest depth lines).length :=
  closeComment_commentRest_iff.2 fun line hline => (h line hline).unclosed

theorem scans_indented_comment {opening : String} {ts : List Token}
    (h : Scans (opening.toList ++ '\n' :: commentRest depth lines) ts) :
    Scans ("\n".intercalate ((commentLines opening lines).map (indented depth))).toList ts := by
  have hlines : commentLines opening lines = opening :: (lines.map starred ++ [" */"]) := rfl
  rw [hlines, List.map_cons, toList_intercalate_cons (by simp), scans_indented_iff]
  exact h

/-- A comment has no tokens. -/
theorem Lays.comment (h : ∀ line ∈ lines, IsCommentLine line) (depth : Nat) :
    Lays depth (Code.block (commentLines "/*" lines)) [] := by
  refine .block (scans_indented_comment ?_)
  have hclose : closeComment ('\n' :: commentRest depth lines) =
      some ('\n' :: commentRest depth lines).length := by
    rw [closeComment_cons (by simp), closeComment_commentRest h]
    rfl
  have hfound := found_comment hclose []
  rw [if_neg (by simp)] at hfound
  have hscans := Scans.skip (w := '*' :: '\n' :: commentRest depth lines) rfl hfound .nil
  rwa [List.append_nil] at hscans

/-- The text of a documentation comment is a token unless a line ends it before. -/
theorem stands_docText_iff : Stands ⟨.doc, docText depth lines⟩ [] ↔
    ∀ line ∈ lines, ¬"*/".toList <:+: line.toList := by
  have htext : (docText depth lines).toList = '/' :: '*' :: '*' :: '\n' :: commentRest depth lines :=
    String.toList_ofList
  have hclose : closeComment ('*' :: '\n' :: commentRest depth lines) =
      (closeComment (commentRest depth lines)).map (· + 2) := by
    rw [closeComment_cons (by simp), closeComment_cons (by simp), Option.map_map]
    rfl
  rw [← @closeComment_commentRest_iff depth lines]
  constructor
  · rintro ⟨c, w, hcons, hfound⟩
    obtain ⟨rfl, rfl⟩ := List.cons.inj (hcons.symm.trans htext)
    have hfound : blockComment ('*' :: '\n' :: commentRest depth lines) =
        .token .doc ('*' :: '*' :: '\n' :: commentRest depth lines).length := by
      rw [← hfound, List.append_nil]
      rfl
    rw [blockComment, hclose] at hfound
    cases hrest : closeComment (commentRest depth lines) with
    | none =>
      rw [hrest] at hfound
      cases hfound
    | some n =>
      rw [hrest, Option.map_some] at hfound
      simp only at hfound
      split at hfound
      · have hlength := (Found.token.inj hfound).2
        simp only [List.length_cons] at hlength
        congr 1
        omega
      · cases hfound
  · intro hrest
    have hwhole : closeComment ('*' :: '\n' :: commentRest depth lines) =
        some ('*' :: '\n' :: commentRest depth lines).length := by
      rw [hclose, hrest]
      rfl
    have hlength : ('*' :: '\n' :: commentRest depth lines).length ≠ 2 := by
      have hpos := closeComment_pos hrest
      simp only [List.length_cons]
      omega
    have hfound := found_comment hwhole []
    rw [if_pos ⟨rfl, hlength⟩] at hfound
    exact ⟨'/', _, htext, hfound⟩

/-- A documentation comment is one token. -/
theorem Lays.docComment (h : ∀ line ∈ lines, ¬"*/".toList <:+: line.toList) (depth : Nat) :
    Lays depth (Code.block (commentLines "/**" lines)) [⟨.doc, docText depth lines⟩] := by
  refine .block (scans_indented_comment ?_)
  have hscans := ((@stands_docText_iff depth lines).2 h).scans .nil
  rwa [List.append_nil, docText, String.toList_ofList] at hscans

end Code

/-! ## The lines of a documentation comment -/

namespace Text

theorem after?_append (front : String) (v : List Char) :
    after? front (String.ofList (front.toList ++ v)) = some (String.ofList v) := by
  rw [after?, String.toList_ofList, if_pos (List.isPrefixOf_iff_prefix.2 (List.prefix_append _ v)),
    ← String.length_toList, List.drop_left]

theorem before?_append (back : String) (v : List Char) :
    before? back (String.ofList (v ++ back.toList)) = some (String.ofList v) := by
  rw [before?, String.toList_ofList, if_pos (List.isSuffixOf_iff_suffix.2 (List.suffix_append v _)),
    String.length_ofList, ← String.length_toList, List.length_append, Nat.add_sub_cancel,
    List.take_left]

theorem dropBlanks_spaces {b : List Char} (hb : ∀ c ∈ b, c = ' ') (u : List Char) :
    dropBlanks (b ++ u) = dropBlanks u :=
  List.dropWhile_append_of_pos (Widened.isBlank_of_spaces hb)

theorem dropTrailingBlanks_eq_nil {u : List Char} (h : u.all isBlank = true) :
    dropTrailingBlanks u = [] := by
  cases u with
  | nil => rfl
  | cons c u => rw [Statement.dropTrailingBlanks_cons, if_pos h]

theorem dropTrailingBlanks_idem (u : List Char) :
    dropTrailingBlanks (dropTrailingBlanks u) = dropTrailingBlanks u := by
  rw [dropTrailingBlanks, dropTrailingBlanks, List.reverse_reverse, dropBlanks, dropBlanks,
    List.dropWhile_idempotent]

theorem getLast?_cons_pieces (p : Char → Bool) (piece u : List Char) :
    (piece :: pieces p u).getLast? = (pieces p u).getLast? := by
  cases hu : pieces p u with
  | nil => exact absurd hu (pieces_ne_nil p u)
  | cons next rest => rw [List.getLast?_cons_cons]

end Text

namespace DocComment

open Code

theorem undecorate_spaces {b : List Char} (hb : ∀ c ∈ b, c = ' ') :
    undecorate (String.ofList b) = "" := by
  have htrim : trim (String.ofList b) = "" := by
    rw [trim, String.toList_ofList, ← List.append_nil b, dropBlanks_spaces hb]
    rfl
  rw [undecorate, htrim]
  rfl

/-- A line loses the star it is written with. -/
theorem undecorate_starred {b : List Char} (hb : ∀ c ∈ b, c = ' ') (line : String) :
    undecorate (String.ofList (b ++ (starred line).toList)) = trimEnd line := by
  have hstar (u : List Char) : undecorate (String.ofList (b ++ ' ' :: '*' :: u)) =
      trimEnd ((after? " " (String.ofList (dropTrailingBlanks u))).getD
        (String.ofList (dropTrailingBlanks u))) := by
    have htrim : trim (String.ofList (b ++ ' ' :: '*' :: u)) =
        String.ofList ('*' :: dropTrailingBlanks u) := by
      have hfront : dropBlanks (' ' :: '*' :: u) = '*' :: u := rfl
      rw [trim, String.toList_ofList, dropBlanks_spaces hb, hfront,
        dropTrailingBlanks_cons_nonblank rfl]
    have hafter (v : List Char) : after? "*" (String.ofList ('*' :: v)) = some (String.ofList v) :=
      after?_append "*" v
    rw [undecorate, htrim, hafter]
    rfl
  unfold starred
  split
  · rename_i hempty
    rw [hempty]
    exact hstar []
  · have hline : (" * " ++ line).toList = ' ' :: '*' :: ' ' :: line.toList := by simp
    rw [hline, hstar, Statement.dropTrailingBlanks_cons]
    split
    · rename_i hblank
      rw [List.all_cons, Bool.and_eq_true] at hblank
      rw [trimEnd, trimEnd, dropTrailingBlanks_eq_nil hblank.2]
      rfl
    · have hafter (v : List Char) : after? " " (String.ofList (' ' :: v)) = some (String.ofList v) :=
        after?_append " " v
      rw [hafter, Option.getD_some, trimEnd, trimEnd, String.toList_ofList, dropTrailingBlanks_idem]

/-- The lines of a comment after its first, up to its end. -/
theorem exists_pieces_commentRest {lines : List String} (h : ∀ line ∈ lines, IsCommentLine line)
    (depth : Nat) :
    ∃ u, commentRest depth lines = u ++ ['*', '/'] ∧
      (pieces (· == '\n') u).getLast? ≠ some [] ∧
      (pieces (· == '\n') u).map (fun piece => undecorate (String.ofList piece)) =
        lines.map trimEnd ++ [""] := by
  induction lines with
  | nil =>
    obtain ⟨b, hrest, hb⟩ := commentRest_nil depth
    have hspaces : ∀ c ∈ b ++ [' '], c = ' ' := by
      intro c hc
      rcases List.mem_append.1 hc with hc | hc
      · exact hb c hc
      · exact List.mem_singleton.1 hc
    have hunbroken : '\n' ∉ b ++ [' '] := fun hmem => by cases hspaces _ hmem
    refine ⟨b ++ [' '], by rw [hrest, List.append_assoc]; rfl, ?_, ?_⟩
    · rw [Statement.pieces_line hunbroken]
      simp
    · rw [Statement.pieces_line hunbroken, List.map_singleton, undecorate_spaces hspaces]
      rfl
  | cons line lines ih =>
    rw [List.forall_mem_cons] at h
    obtain ⟨b, hrest, hb⟩ := commentRest_cons depth line lines
    obtain ⟨u, hu, hlast, hmap⟩ := ih h.2
    have hunbroken : '\n' ∉ b ++ (starred line).toList := by
      rw [List.mem_append, not_or]
      refine ⟨fun hmem => (by cases hb _ hmem), ?_⟩
      have hline := h.1.unbroken
      unfold starred
      split
      · simp
      · simpa using hline
    refine ⟨b ++ (starred line).toList ++ '\n' :: u, ?_, ?_, ?_⟩
    · rw [hrest, hu]
      simp
    · rwa [Statement.pieces_line_newline hunbroken, getLast?_cons_pieces]
    · rw [Statement.pieces_line_newline hunbroken, List.map_cons, hmap, undecorate_starred hb]
      rfl

theorem dropEmptyEnds_padded (lines : List String) :
    dropEmptyEnds ("" :: (lines ++ [""])) = dropEmptyEnds lines := by
  have hfront : ("" :: (lines ++ [""])).dropWhile (· == "") = (lines ++ [""]).dropWhile (· == "") :=
    rfl
  rw [dropEmptyEnds, dropEmptyEnds, hfront, List.dropWhile_append]
  split
  · rename_i hnil
    rw [List.isEmpty_iff.1 hnil]
    rfl
  · rw [List.reverse_append]
    rfl

/-- The lines of a comment are those between its delimiters, without their decoration. -/
theorem lines_read {raw : String} {v : List Char}
    (h : raw.toList = "/**".toList ++ (v ++ "*/".toList)) :
    (DocComment.read raw).lines =
      dropEmptyEnds ((Text.lines v).map fun line => undecorate (String.ofList line)) := by
  have hraw : raw = String.ofList ("/**".toList ++ (v ++ "*/".toList)) := by
    rw [← h, String.ofList_toList]
  have hends (u : List Char) : dropTrailingBlanks (u ++ ['/']) = u ++ ['/'] := by
    simp [dropTrailingBlanks, dropBlanks, isBlank]
  have htrim : trim raw = raw := by
    have hsplit : "/**".toList ++ (v ++ "*/".toList) =
        '/' :: ('*' :: '*' :: (v ++ ['*'])) ++ ['/'] := by simp
    have hfront (u : List Char) : dropBlanks ('/' :: u) = '/' :: u := rfl
    rw [hraw, trim, String.toList_ofList, hsplit, List.cons_append, hfront, ← List.cons_append, hends]
  have hafter : after? "/**" raw = some (String.ofList (v ++ "*/".toList)) := by
    rw [hraw]
    exact after?_append "/**" _
  rw [DocComment.read, htrim, hafter, Option.getD_some, before?_append "*/" v, Option.getD_some,
    String.toList_ofList]

/-- A documentation comment says its lines, without the blanks at their ends and without empty lines
around them. -/
theorem read_docText {lines : List String} (h : ∀ line ∈ lines, IsCommentLine line) (depth : Nat) :
    DocComment.read (docText depth lines) = ⟨dropEmptyEnds (lines.map trimEnd)⟩ := by
  obtain ⟨u, hrest, hlast, hmap⟩ := exists_pieces_commentRest h depth
  have htext : (docText depth lines).toList = "/**".toList ++ ('\n' :: u ++ "*/".toList) := by
    rw [docText, hrest, String.toList_ofList]
    simp
  have hlines : Text.lines ('\n' :: u) = [] :: pieces (· == '\n') u := by
    have hpieces : pieces (· == '\n') ('\n' :: u) = [] :: pieces (· == '\n') u := rfl
    rw [Text.lines, hpieces, getLast?_cons_pieces, if_neg hlast]
  have hempty : undecorate (String.ofList []) = "" := undecorate_spaces (List.forall_mem_nil _)
  have hread := lines_read htext
  rw [hlines, List.map_cons, hmap, hempty, dropEmptyEnds_padded] at hread
  rw [← hread]

end DocComment

end CurryGen

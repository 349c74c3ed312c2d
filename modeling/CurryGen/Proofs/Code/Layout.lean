import CurryGen.Code.ClassFile
import CurryGen.Proofs.Token.Widen
import CurryGen.Proofs.Token.Word
import CurryGen.Proofs.Tree.Lines

/-!
# Tokens of laid out text

Indenting lines keeps their tokens, up to the texts of documentation comments, as long as no string
holds a line feed between two of the lines. A text is laid out from parts, each with its tokens.

* `joints`: where lines are joined.
* `exists_scans_indented_lines`: the tokens of indented lines.
* `Lays`: marks that lay out a text with given tokens, with a law for each way to combine marks.
-/

namespace CurryGen.Code

open Scan

/-! ## Indented lines -/

/-- The offsets of the line feeds that join lines, the first of which starts at `offset`. -/
def joints (offset : Nat) : List String → List Nat
  | line :: next :: rest =>
    (offset + line.utf8ByteSize) :: joints (offset + line.utf8ByteSize + 1) (next :: rest)
  | _ => []

variable {depth : Nat}

theorem toList_intercalate_cons {line : String} {rest : List String} (h : rest ≠ []) :
    ("\n".intercalate (line :: rest)).toList =
      line.toList ++ '\n' :: ("\n".intercalate rest).toList := by
  obtain ⟨next, rest, rfl⟩ := List.exists_cons_of_ne_nil h
  rw [String.intercalate_cons_cons, String.toList_append, String.toList_append, List.append_assoc]
  rfl

theorem exists_indented (depth : Nat) (line : String) :
    ∃ b, (indented depth line).toList = b ++ line.toList ∧ ∀ c ∈ b, c = ' ' := by
  unfold indented
  split
  · rename_i hempty
    exact ⟨[], by rw [hempty]; rfl, nofun⟩
  · refine ⟨List.replicate (4 * depth) ' ', ?_, fun c hc => (List.mem_replicate.1 hc).2⟩
    rw [String.toList_append, String.toList_ofList]

/-- Indented lines are the lines with spaces in front of them. -/
theorem exists_widened {J : Nat → Prop} (depth : Nat) (rest : List String) :
    ∀ (line : String) (offset : Nat), (∀ o ∈ joints offset (line :: rest), J o) →
      ∃ b x, ("\n".intercalate ((line :: rest).map (indented depth))).toList = b ++ x ∧
        (∀ c ∈ b, c = ' ') ∧
        Widened J offset ("\n".intercalate (line :: rest)).toList x := by
  induction rest with
  | nil =>
    intro line offset _
    obtain ⟨b, hline, hb⟩ := exists_indented depth line
    refine ⟨b, line.toList, ?_, hb, ?_⟩
    · rw [List.map_singleton, String.intercalate_singleton, hline]
    · rw [String.intercalate_singleton]
      exact .refl _ _
  | cons next rest ih =>
    intro line offset hJ
    rw [joints, List.forall_mem_cons] at hJ
    obtain ⟨b, hline, hb⟩ := exists_indented depth line
    obtain ⟨b', x, hrest, hb', hx⟩ := ih next _ hJ.2
    refine ⟨b, line.toList ++ '\n' :: (b' ++ x), ?_, hb, ?_⟩
    · rw [List.map_cons, toList_intercalate_cons (by simp), hline, hrest, List.append_assoc]
    · have hbytes : Text.byteLength line.toList = line.utf8ByteSize := by
        rw [byteLength_eq, String.ofList_toList]
      rw [toList_intercalate_cons (by simp)]
      exact (Widened.refl _ _).append (.newline (by rw [hbytes]; exact hJ.1) hb'
        (by rw [hbytes]; exact hx))

theorem scans_indented_iff {line : String} {y : List Char} {ts : List Token} :
    Scans ((indented depth line).toList ++ y) ts ↔ Scans (line.toList ++ y) ts := by
  obtain ⟨b, hline, hb⟩ := exists_indented depth line
  rw [hline, List.append_assoc, scans_spaces_iff (Widened.isSpace_of_spaces hb)]

/-- Lines have the same tokens when they are indented, up to the texts of documentation comments, if
no string holds one of the line feeds that join them. -/
theorem exists_scans_indented_lines {lines : List String} {run : Run}
    (h : scan ("\n".intercalate lines).toList = .ok run)
    (hstrings : ∀ t ∈ run, t.kind = .string → ∀ o ∈ joints 0 lines, ¬(t.start ≤ o ∧ o < t.stop))
    (depth : Nat) :
    ∃ us, Scans ("\n".intercalate (lines.map (indented depth))).toList us ∧
      us.map Token.erased = run.tokens.map Token.erased := by
  cases lines with
  | nil => exact ⟨_, scans_iff.2 ⟨run, h, rfl⟩, rfl⟩
  | cons line rest =>
    obtain ⟨b, x, htext, hb, hx⟩ :=
      exists_widened (J := (· ∈ joints 0 (line :: rest))) depth rest line 0 fun _ => id
    rw [htext]
    obtain ⟨us, hus, herased⟩ := exists_scans_widened h hstrings hx
    exact ⟨us, (scans_spaces_iff (Widened.isSpace_of_spaces hb)).2 hus, herased⟩

/-! ## Marks -/

theorem linesFrom_block (depth : Nat) (lines : List String) (rest : List Mark) :
    linesFrom depth (block lines ++ rest) = lines.map (indented depth) ++ linesFrom depth rest := by
  induction lines with
  | nil => rfl
  | cons line lines ih => exact congrArg (indented depth line :: ·) ih

/-- Marks that lay out a text with these tokens, and end at the indentation they begin at. -/
structure Lays (depth : Nat) (marks : List Mark) (ts : List Token) : Prop where
  scans : Scans ("\n".intercalate (linesFrom depth marks)).toList ts
  level : ∀ rest, linesFrom depth (marks ++ rest) = linesFrom depth marks ++ linesFrom depth rest

namespace Lays

variable {marks more : List Mark} {ts us : List Token}

theorem nil (depth : Nat) : Lays depth [] [] where
  scans := .nil
  level _ := rfl

theorem blank (depth : Nat) : Lays depth [.blank] [] where
  scans := .nil
  level _ := rfl

theorem line {text : String} (h : Scans text.toList ts) : Lays depth [.line text] ts where
  scans := by
    have hline : Scans ((indented depth text).toList ++ []) ts :=
      scans_indented_iff.2 (by rwa [List.append_nil])
    rwa [linesFrom, linesFrom, String.intercalate_singleton, ← List.append_nil (String.toList _)]
  level _ := rfl

theorem block {lines : List String}
    (h : Scans ("\n".intercalate (lines.map (indented depth))).toList ts) :
    Lays depth (block lines) ts := by
  have hlines : linesFrom depth (Code.block lines) = lines.map (indented depth) := by
    rw [← List.append_nil (Code.block lines), linesFrom_block, linesFrom, List.append_nil]
  exact ⟨by rwa [hlines], fun rest => by rw [linesFrom_block, hlines]⟩

theorem append (h : Lays depth marks ts) (hmore : Lays depth more us) :
    Lays depth (marks ++ more) (ts ++ us) where
  scans := by
    rw [h.level]
    exact Statement.scans_intercalate_append h.scans hmore.scans
  level rest := by rw [List.append_assoc, h.level, h.level, hmore.level, List.append_assoc]

theorem cons {text : String} (h : Scans text.toList ts) (hmore : Lays depth more us) :
    Lays depth (.line text :: more) (ts ++ us) :=
  (line h).append hmore

theorem braced (h : Lays (depth + 1) marks ts) :
    Lays depth (braced marks) (.symbol "\x7b" :: (ts ++ [.symbol "\x7d"])) := by
  have hclose : Lays depth [.line "\x7d"] [.symbol "\x7d"] := line (scans_solitary (by decide))
  have hlines (rest : List Mark) : linesFrom (depth + 1) (marks ++ .dedent :: rest) =
      linesFrom (depth + 1) marks ++ linesFrom depth rest := h.level _
  have hinner : Lays depth (.indent :: (marks ++ [.dedent])) ts := by
    refine ⟨?_, fun rest => ?_⟩
    · rw [linesFrom, hlines, linesFrom, List.append_nil]
      exact h.scans
    · rw [List.cons_append, List.append_assoc, linesFrom, List.singleton_append, hlines, linesFrom,
        hlines, linesFrom, List.append_nil]
  have hall := (line (scans_solitary (s := "\x7b") (by decide))).append (hinner.append hclose)
  simpa [Code.braced] using hall

/-- Parts with empty lines between them. -/
theorem separated {parts : List (List Mark)} {tss : List (List Token)}
    (h : List.Forall₂ (Lays depth) parts tss) : Lays depth (separated parts) tss.flatten := by
  induction h with
  | nil => exact nil depth
  | @cons part ts parts tss hpart hparts ih =>
    cases parts with
    | nil =>
      cases hparts
      rwa [Code.separated, List.flatten_singleton]
    | cons next parts => exact hpart.append ((blank depth).append ih)

/-- The tokens of a text whose lines all end. -/
theorem scans_unlines (h : Lays depth marks ts) :
    Scans (unlines (linesFrom depth marks)).toList ts := by
  have hunlines (line : String) (rest : List String) :
      (unlines (line :: rest)).toList = ("\n".intercalate (line :: rest)).toList ++ ['\n'] := by
    induction rest generalizing line with
    | nil => simp [unlines]
    | cons next rest ih =>
      have hcons : (unlines (line :: next :: rest)).toList =
          line.toList ++ '\n' :: (unlines (next :: rest)).toList := by simp [unlines]
      rw [hcons, ih, toList_intercalate_cons (List.cons_ne_nil next rest), List.append_assoc,
        List.cons_append]
  have hscans := h.scans
  cases hlines : linesFrom depth marks with
  | nil =>
    rw [hlines] at hscans
    exact hscans
  | cons line rest =>
    rw [hlines] at hscans
    rw [hunlines, ← List.append_nil ts]
    exact hscans.append_newline .nil

/-- The tokens of a whole text. -/
theorem scans_layout (h : Lays 0 marks ts) : Scans (layout marks).toList ts := h.scans_unlines

end Lays

end CurryGen.Code

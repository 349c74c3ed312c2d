import CurryGen.Code.Layout
import CurryGen.Proofs.Token.Slice
import CurryGen.Proofs.Tree.Source
import CurryGen.Proofs.Tree.Split
import CurryGen.Proofs.Tree.Statement
import Mathlib

/-!
# The lines of a statement

The source lines of a statement, moved left, are read as the tokens of the statement again. Only a
string that spans lines can be another one afterwards.

* `Statement.scan_joined_lines_iff`: the lines of a run are read as its tokens exactly when the line
  breaks in its strings keep their neighbours.
* `Statement.exists_scans_lines`: the lines of several runs, at any indentation.
* `SourceFile.scan_lines_iff`: the same for the statements of every method of a file.
-/

namespace CurryGen

open Scan Statement

/-- Every statement of a method is read from neighbouring tokens of the file. -/
theorem MethodDecl.ReadFrom.exists_run {source : List Char} {run : Run} {m : MethodDecl}
    (h : m.ReadFrom source run) {s : Stmt} (hs : s ∈ m.statements) :
    ∃ r, r <:+: run ∧ r ≠ [] ∧ s = readStatement source r := by
  rw [MethodDecl.statements] at hs
  rcases h.body with hbody | ⟨inner, hinner, hbody⟩
  · rw [hbody] at hs
    cases hs
  · rw [hbody, Option.getD_some, readStatements_eq_map] at hs
    obtain ⟨r, hr, rfl⟩ := List.mem_map.1 hs
    obtain ⟨hneighbours, hne⟩ := neighbours_of_mem_split hr
    exact ⟨r, hneighbours.trans hinner.isInfix, hne, rfl⟩

namespace Statement

variable {text : List Char} {run r : Run}

theorem padded_zero (line : List Char) : padded 0 line = line := by
  rw [padded]
  split
  · rename_i hnil
    rw [hnil]
  · rfl

/-- The lines of a run, joined again, are its text moved left. -/
theorem toList_intercalate_lines (h : endsNonblank (sourceText text r) = true) :
    ("\n".intercalate (lines text r)).toList =
      reflow (indentation text r) 0 (sourceText text r) := by
  have hlines := intercalate_movedLeft h (indentation text r) 0
  have hpad : pad 0 (sourceText text r) = [] := by simp [pad]
  rw [hpad, List.nil_append, List.map_congr_left fun l _ => padded_zero l, List.map_id'] at hlines
  rw [← hlines, String.toList_intercalate, lines, List.map_map]
  congr 1
  exact (List.map_congr_left fun _ _ => String.toList_ofList).trans (List.map_id' _)

/-- The lines of a run are read as its tokens, documentation comments left out, exactly when the line
breaks in its strings keep their neighbours. -/
theorem scan_joined_lines_iff (h : scan text = .ok run) (hneighbours : r <:+: run) (hr : r ≠ []) :
    (∃ us, scan ("\n".intercalate (lines text r)).toList = .ok us ∧ us.code.tokens = r.code.tokens) ↔
      ∀ t ∈ r.code, t.kind = .string → t.text.toList.IsChain (KeepsBreak (indentation text r)) := by
  obtain ⟨hscans, hends⟩ := scans_sourceText h hneighbours hr
  -- a string is no documentation comment, and stays as it is exactly when its line breaks do
  have hstrings : (∀ t ∈ r.tokens, t.kind = .string →
        reflow (indentation text r) 0 t.text.toList = t.text.toList) ↔
      ∀ t ∈ r.code, t.kind = .string →
        t.text.toList.IsChain (KeepsBreak (indentation text r)) := by
    constructor
    · intro hkept t ht hkind
      have hmem : t.toToken ∈ r.tokens := List.mem_map_of_mem (List.mem_filter.1 ht).1
      exact (reflow_eq_self_iff (hscans.stands _ hmem).endsNonblank).1 (hkept _ hmem hkind)
    · intro hkept t ht hkind
      obtain ⟨p, hp, rfl⟩ := List.mem_map.1 ht
      have hmem : p ∈ r.code := List.mem_filter.2 ⟨hp, by simp [Token.isDoc, hkind]⟩
      exact (reflow_eq_self_iff (hscans.stands _ ht).endsNonblank).2 (hkept p hmem hkind)
  rw [toList_intercalate_lines hends, ← hstrings]
  constructor
  · intro hleft
    obtain ⟨us, hus, hcode⟩ := hleft
    rw [Run.tokens_code, Run.tokens_code] at hcode
    exact reflow_eq_self_of_scans hscans (scans_iff.2 ⟨us, hus, rfl⟩) hcode
  · intro hkept
    obtain ⟨ts, hts, herased⟩ := exists_scans_reflow hscans hkept
    obtain ⟨us, hus, rfl⟩ := scans_iff.1 hts
    refine ⟨us, hus, ?_⟩
    rw [Run.tokens_code, Run.tokens_code, ← Token.filter_code_erased, herased,
      Token.filter_code_erased]

/-! ## Lines of several statements -/

/-- Lines one after another have the tokens of all of them. -/
theorem scans_intercalate_append {a b : List String} {ts us : List Token}
    (ha : Scans ("\n".intercalate a).toList ts) (hb : Scans ("\n".intercalate b).toList us) :
    Scans ("\n".intercalate (a ++ b)).toList (ts ++ us) := by
  by_cases hanil : a = []
  · subst hanil
    rwa [ha.unique .nil]
  by_cases hbnil : b = []
  · subst hbnil
    rwa [hb.unique .nil, List.append_nil, List.append_nil]
  rw [String.intercalate_append_of_ne_nil hanil hbnil, String.toList_append, String.toList_append,
    List.append_assoc]
  exact ha.append_newline hb

theorem toList_indented (depth : Nat) (line : List Char) :
    (Code.indented depth (String.ofList line)).toList = padded (4 * depth) line := by
  unfold Code.indented padded
  cases line with
  | nil => rfl
  | cons c line => simp

/-- The lines of a run have its tokens at any indentation, if no string spans lines. -/
theorem exists_scans_indented (h : scan text = .ok run) (hneighbours : r <:+: run) (hr : r ≠ [])
    (hstrings : ∀ t ∈ r.tokens, t.kind = .string → '\n' ∉ t.text.toList) (depth : Nat) :
    ∃ us, Scans ("\n".intercalate ((lines text r).map (Code.indented depth))).toList us ∧
      us.map Token.erased = r.tokens.map Token.erased := by
  obtain ⟨hscans, hends⟩ := scans_sourceText h hneighbours hr
  have hkept : ∀ t ∈ r.tokens, t.kind = .string →
      reflow (indentation text r) (4 * depth) t.text.toList = t.text.toList := fun t ht hkind =>
    reflow_eq_self_of_notMem (hscans.stands t ht).endsNonblank (hstrings t ht hkind)
  obtain ⟨us, hus, herased⟩ := exists_scans_reflow hscans hkept
  refine ⟨us, ?_, herased⟩
  have hlines : ("\n".intercalate ((lines text r).map (Code.indented depth))).toList =
      ['\n'].intercalate ((movedLeft (indentation text r) (sourceText text r)).map
        (padded (4 * depth))) := by
    rw [String.toList_intercalate, lines, List.map_map, List.map_map]
    congr 1
    exact List.map_congr_left fun line _ => toList_indented depth line
  rw [hlines, intercalate_movedLeft hends]
  exact (scans_spaces_iff fun _ => isSpace_of_mem_pad).2 hus

/-- The lines of runs have the tokens of all of them, one run after another. -/
theorem exists_scans_lines {rs : List Run} (h : scan text = .ok run)
    (hneighbours : ∀ r ∈ rs, r <:+: run ∧ r ≠ [])
    (hstrings : ∀ r ∈ rs, ∀ t ∈ Run.tokens r, t.kind = .string → '\n' ∉ t.text.toList)
    (depth : Nat) :
    ∃ us, Scans ("\n".intercalate ((rs.flatMap (lines text)).map (Code.indented depth))).toList us ∧
      us.map Token.erased = outline rs.flatten := by
  induction rs with
  | nil => exact ⟨[], .nil, rfl⟩
  | cons r rs ih =>
    obtain ⟨hr, hrs⟩ := List.forall_mem_cons.1 hneighbours
    obtain ⟨hs, hss⟩ := List.forall_mem_cons.1 hstrings
    obtain ⟨ts, hts, hterased⟩ := exists_scans_indented h hr.1 hr.2 hs depth
    obtain ⟨us, hus, huerased⟩ := ih hrs hss
    refine ⟨ts ++ us, ?_, ?_⟩
    · rw [List.flatMap_cons, List.map_append]
      exact scans_intercalate_append hts hus
    · rw [List.map_append, hterased, huerased, ← outline_eq]
      exact List.map_append.symm

end Statement

/-- **The lines of a statement are read as its tokens**, documentation comments left out, exactly when
its strings have no blank before a line break and no indentation after one, or the line on which the
statement starts has none either. -/
theorem SourceFile.scan_lines_iff {path : Path} {text : String} {file : SourceFile}
    (h : SourceFile.read path text = .ok file) {c : ClassDecl} (hc : c ∈ file.classes)
    {m : MethodDecl} (hm : m ∈ c.methods) {s : Stmt} (hs : s ∈ m.statements) :
    ∃ run r, scan text.toList = .ok run ∧ r <:+: run ∧ s = readStatement text.toList r ∧
      ((∃ us, scan ("\n".intercalate s.lines).toList = .ok us ∧
          us.code.tokens = s.tokens.tokens) ↔
        ∀ t ∈ s.tokens, t.kind = .string →
          t.text.toList.IsChain (KeepsBreak (indentation text.toList r))) := by
  obtain ⟨run, hrun, hread⟩ := SourceFile.readFrom_of_read h
  obtain ⟨r, hneighbours, hr, rfl⟩ := (hread c hc m hm).exists_run hs
  refine ⟨run, r, hrun, hneighbours, rfl, ?_⟩
  rw [tokens_readStatement, lines_readStatement]
  exact scan_joined_lines_iff hrun hneighbours hr

/-- A file whose only statement returns a string that spans lines. -/
theorem SourceFile.read_spanning :
    let text := "class T \x7b function f() \x7b\n  return 'a\n   b'; \x7d \x7d"
    let inner : Run := [⟨⟨.name, "return"⟩, 27⟩, ⟨⟨.string, "'a\n   b'"⟩, 34⟩, ⟨.symbol ";", 42⟩]
    (∃ run : Run, scan text.toList = .ok run ∧ run.code = run) ∧
      SourceFile.read ⟨"t.php"⟩ text = .ok
        { classes := [{ name := "T", methods :=
          [{ name := "f", body := some [readStatement text.toList inner] }] }] } := by
  intro text inner
  let first : Placed := ⟨⟨.name, "class"⟩, 0⟩
  let rest : Run :=
    [⟨⟨.name, "T"⟩, 6⟩, ⟨.symbol "\x7b", 8⟩, ⟨⟨.name, "function"⟩, 10⟩, ⟨⟨.name, "f"⟩, 19⟩,
      ⟨.symbol "(", 20⟩, ⟨.symbol ")", 21⟩, ⟨.symbol "\x7b", 23⟩] ++ inner ++
    [⟨.symbol "\x7d", 44⟩, ⟨.symbol "\x7d", 46⟩]
  have hscan : scan text.toList = .ok (first :: rest) := by cbv
  have hstatements (source : List Char) :
      readStatements source inner = [readStatement source inner] := by
    have hsplit : split inner = [inner] := by decide +kernel
    rw [readStatements_eq_map, hsplit, List.map_singleton]
  have hclass (ctx : Declaration.Context) : Declaration.readClass ctx .regular first rest = .ok
      ({ name := "T", methods := [{ name := "f", body := some (readStatements ctx.source inner) }] },
        []) := by
    cbv
  refine ⟨⟨_, hscan, by decide +kernel⟩, ?_⟩
  rw [← hstatements]
  exact SourceFile.read_class hscan rfl fun last => hclass ⟨text.toList, last⟩

/-- A string that spans lines loses the indentation of the statement. -/
theorem SourceFile.scan_lines_iff_spanning :
    let text := "class T \x7b function f() \x7b\n  return 'a\n   b'; \x7d \x7d"
    ∃ file c m s, SourceFile.read ⟨"t.php"⟩ text = .ok file ∧ c ∈ file.classes ∧ m ∈ c.methods ∧
      s ∈ m.statements ∧ s.lines = ["return 'a", " b';"] ∧
      ¬∃ us, scan ("\n".intercalate s.lines).toList = .ok us ∧ us.code.tokens = s.tokens.tokens := by
  intro text
  obtain ⟨⟨run, hscan, hcode⟩, hread⟩ := SourceFile.read_spanning
  have hmem {α : Type} {a : α} : a ∈ [a] := List.mem_singleton.2 rfl
  refine ⟨_, _, _, _, hread, hmem, hmem, hmem, ?_, ?_⟩
  · rw [lines_readStatement]
    decide +kernel
  · obtain ⟨run', r, hrun, hneighbours, heq, hiff⟩ :=
      SourceFile.scan_lines_iff hread hmem hmem hmem
    rw [hiff, tokens_readStatement]
    -- without documentation comments, the statement has come from its own tokens alone
    have htokens := congrArg Stmt.tokens heq
    have hr : Run.code r = r := by
      rw [hscan] at hrun
      obtain rfl := Except.ok.inj hrun
      refine List.filter_eq_self.2 fun t ht => ?_
      exact List.filter_eq_self.1 hcode t (hneighbours.subset ht)
    rw [tokens_readStatement, tokens_readStatement, hr] at htokens
    rw [← htokens]
    decide +kernel

end CurryGen

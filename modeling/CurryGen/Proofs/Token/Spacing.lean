import CurryGen.Proofs.Token.Reading
import CurryGen.Token.Spacing
import Mathlib

/-!
# Reading normalised text again

`Token.format` leaves the space between two tokens out where they belong together. That changes no
token, except where a symbol and the token after it begin with a longer symbol, as the two signs of
`- -$x` do.

* `glues`: whether two tokens written together begin with a longer symbol.
* `stands_unspaced_iff`: without a space, a token stands before the next one unless they glue.
* `scan_format_iff`: normalised text has the tokens it was made of, exactly when no two of them that
  it writes together glue.
* `scan_intercalate_space`: with a space between any two tokens all of them are read again.
-/

namespace CurryGen

open Scan

namespace Token

/-- Whether a symbol longer than the first of two tokens begins both written together. -/
def glues (previous t : Token) : Bool :=
  previous.kind == .symbol && symbols.any fun s =>
    decide (previous.text.toList.length < s.toList.length) &&
      s.toList.isPrefixOf (previous.text.toList ++ t.text.toList)

/-- Whether two neighbours among `previous` and the tokens after it stand without a space and
glue. -/
def gluesAfter (previous : Token) (unary : Bool) : List Token → Bool
  | [] => false
  | t :: ts =>
    (!needsSpace previous unary t && glues previous t) ||
      gluesAfter t (isUnary (some previous) t) ts

/-- Whether two neighbours stand without a space in normalised text and glue. -/
def hasGlue : List Token → Bool
  | [] => false
  | t :: ts => gluesAfter t (isUnary none t) ts

/-! ## Pairs without a space -/

/-- Signs that can belong to what follows them. -/
def signs : List String := ["-", "+", "&", "++", "--"]

/-- Symbols that no space follows. -/
def tight : List String := ["(", "[", "->", "?->", "::", "...", "!", "@", "~"]

/-- Symbols before which the space can be missing. -/
def closing : List String := [",", ";", ")", "]", "->", "?->", "::", "++", "--", "(", "["]

theorem isSymbolIn_iff {texts : List String} {t : Token} :
    t.isSymbolIn texts = true ↔ t.kind = .symbol ∧ t.text ∈ texts := by
  simp [isSymbolIn]

theorem isSymbolIn_of_isUnary {previous : Option Token} {t : Token}
    (h : isUnary previous t = true) : t.isSymbolIn signs = true :=
  (Bool.and_eq_true_iff.1 h).1

/-- A space is only left out after a sign or a tight symbol, or before a closing symbol. -/
theorem unspaced_cases {previous t : Token} {unary : Bool}
    (hunary : unary = true → previous.isSymbolIn signs = true)
    (h : needsSpace previous unary t = false) :
    previous.isSymbolIn (signs ++ tight) = true ∨ t.isSymbolIn closing = true := by
  unfold needsSpace at h
  split at h
  · rename_i hu
    obtain ⟨hkind, hmem⟩ := isSymbolIn_iff.1 (hunary hu)
    exact .inl (isSymbolIn_iff.2 ⟨hkind, List.mem_append_left _ hmem⟩)
  · split at h
    · rename_i htight
      obtain ⟨hkind, hmem⟩ := isSymbolIn_iff.1 htight
      exact .inl (isSymbolIn_iff.2 ⟨hkind, List.mem_append_right _ hmem⟩)
    · split at h
      · rename_i hclosing
        obtain ⟨hkind, hmem⟩ := isSymbolIn_iff.1 hclosing
        refine .inr (isSymbolIn_iff.2 ⟨hkind, ?_⟩)
        exact List.mem_append_left ["++", "--", "(", "["] hmem
      · split at h
        · rename_i hstep
          obtain ⟨hkind, hmem⟩ := isSymbolIn_iff.1 hstep
          refine .inr (isSymbolIn_iff.2 ⟨hkind, ?_⟩)
          simp only [List.mem_cons, List.not_mem_nil, or_false] at hmem
          rcases hmem with hmem | hmem <;> simp [closing, hmem]
        · split at h
          · rename_i hopen
            simp only [isSymbol, Bool.and_eq_true, beq_iff_eq] at hopen
            exact .inr (isSymbolIn_iff.2 ⟨hopen.1, by simp [closing, hopen.2]⟩)
          · split at h
            · rename_i hopen
              simp only [isSymbol, Bool.and_eq_true, beq_iff_eq] at hopen
              exact .inr (isSymbolIn_iff.2 ⟨hopen.1, by simp [closing, hopen.2]⟩)
            · cases h

/-! The pairs are decided by a few facts about the table of symbols. -/

theorem exists_symbol_between : ∀ p ∈ signs ++ tight, ∀ s ∈ symbols, p.toList <+: s.toList →
    p.toList.length < s.toList.length →
    ∃ s' ∈ symbols, s'.toList.length = p.toList.length + 1 ∧ s'.toList <+: s.toList := by
  decide

theorem not_isPrefix_mark : ∀ p ∈ signs ++ tight, ∀ m ∈ marks, ¬p.toList <+: m.toList := by
  decide

theorem drop_eq_of_closing : ∀ t ∈ closing, ∀ s ∈ marks ++ symbols, ∀ k < s.toList.length, 0 < k →
    t.toList <+: s.toList.drop k → s.toList.drop k = t.toList := by
  decide

theorem not_drop_mark_isPrefix : ∀ t ∈ closing, ∀ m ∈ marks, ∀ k < m.toList.length, 0 < k →
    ¬m.toList.drop k <+: t.toList := by
  decide

theorem isStop_of_closing : ∀ t ∈ closing, t.toList.head?.any isStop = true := by
  decide

/-- What begins the texts of two tokens and more, and is longer than the first text, is that text and
a part of what follows. -/
theorem drop_isPrefix {p s y : List Char} (h : s <+: p ++ y) (hlt : p.length < s.length) :
    p <+: s ∧ s.drop p.length <+: y ∧ s = p ++ s.drop p.length := by
  have hp : p <+: s := List.prefix_of_prefix_length_le (List.prefix_append p y) h (Nat.le_of_lt hlt)
  obtain ⟨z, rfl⟩ := hp
  rw [List.drop_left]
  exact ⟨List.prefix_append p z, (List.prefix_append_right_inj p).1 h, rfl⟩

/-- What a closing symbol and more continue, the symbol alone continues. -/
theorem drop_isPrefix_closing {t s : String} (ht : t ∈ closing) (hs : s ∈ marks ++ symbols) {k : Nat}
    (hk : k < s.toList.length) (hpos : 0 < k) {y : List Char}
    (h : s.toList.drop k <+: t.toList ++ y) : s.toList.drop k <+: t.toList := by
  rcases List.prefix_or_prefix_of_prefix h (List.prefix_append t.toList y) with h | h
  · exact h
  · exact drop_eq_of_closing t ht s hs k hk hpos h ▸ List.prefix_rfl

/-- Where no space stands, no comment and no tag begins. -/
theorem not_mark_isPrefix {previous t : Token} (hprevious : Stands previous [])
    (hsymbol : previous.kind = .symbol)
    (hpair : previous.isSymbolIn (signs ++ tight) = true ∨ t.isSymbolIn closing = true)
    (y : List Char) : ∀ m ∈ marks, ¬m.toList <+: previous.text.toList ++ (t.text.toList ++ y) := by
  intro m hm hfront
  rcases Nat.lt_or_ge previous.text.toList.length m.toList.length with hlt | hle
  · obtain ⟨hp, hrest, -⟩ := drop_isPrefix hfront hlt
    rcases hpair with hpair | hpair
    · exact not_isPrefix_mark _ (isSymbolIn_iff.1 hpair).2 m hm hp
    · have hclosing := (isSymbolIn_iff.1 hpair).2
      have hpos : 0 < previous.text.toList.length :=
        List.length_pos_iff.2 (symbols_ne_nil _ (hprevious.mem_symbols hsymbol))
      exact not_drop_mark_isPrefix _ hclosing m hm _ hlt hpos
        (drop_isPrefix_closing hclosing (List.mem_append_left _ hm) hlt hpos hrest)
  · have hp := List.prefix_of_prefix_length_le hfront (List.prefix_append _ _) hle
    obtain ⟨c, w, htext, hfound⟩ := hprevious
    rw [List.append_nil, hsymbol] at hfound
    rw [htext] at hp
    exact found_mark hm hp _ hfound

/-- A symbol at the head of two tokens without a space, and longer than the first, is there because
the two glue. -/
theorem length_le_of_not_glues {previous t : Token} (hprevious : Stands previous [])
    (hsymbol : previous.kind = .symbol) (ht : Stands t [])
    (hpair : previous.isSymbolIn (signs ++ tight) = true ∨ t.isSymbolIn closing = true)
    (hno : ∀ s ∈ symbols, s.toList <+: previous.text.toList ++ t.text.toList →
      s.toList.length ≤ previous.text.toList.length)
    {y : List Char} {s : String} (hs : s ∈ symbols)
    (hfront : s.toList <+: previous.text.toList ++ (t.text.toList ++ y)) :
    s.toList.length ≤ previous.text.toList.length := by
  by_contra hlong
  have hlt : previous.text.toList.length < s.toList.length := Nat.lt_of_not_le hlong
  obtain ⟨hp, hrest, hsplit⟩ := drop_isPrefix hfront hlt
  rcases hpair with hpair | hpair
  · -- one more character already makes a symbol
    obtain ⟨s', hs', hlength, hfront'⟩ :=
      exists_symbol_between _ (isSymbolIn_iff.1 hpair).2 s hs hp hlt
    obtain ⟨c, w, htext, -⟩ := ht
    have hboth : s'.toList <+: previous.text.toList ++ t.text.toList := by
      refine List.prefix_of_prefix_length_le (hfront'.trans hfront) ?_ ?_
      · rw [← List.append_assoc]
        exact List.prefix_append _ _
      · rw [hlength, List.length_append, htext, List.length_cons]
        omega
    have := hno s' hs' hboth
    omega
  · have hclosing := (isSymbolIn_iff.1 hpair).2
    have hpos : 0 < previous.text.toList.length :=
      List.length_pos_iff.2 (symbols_ne_nil _ (hprevious.mem_symbols hsymbol))
    have hpart : s.toList.drop previous.text.toList.length <+: t.text.toList :=
      drop_isPrefix_closing hclosing (List.mem_append_right _ hs) hlt hpos hrest
    refine hlong (hno s hs ?_)
    rw [hsplit]
    exact (List.prefix_append_right_inj _).2 hpart

theorem glues_eq_false_iff {previous t : Token} :
    glues previous t = false ↔ (previous.kind = .symbol →
      ∀ s ∈ symbols, s.toList <+: previous.text.toList ++ t.text.toList →
        s.toList.length ≤ previous.text.toList.length) := by
  rw [← Bool.not_eq_true, glues]
  simp only [Bool.and_eq_true, beq_iff_eq, List.any_eq_true, decide_eq_true_eq,
    List.isPrefixOf_iff_prefix, not_and, not_exists]
  refine forall_congr' fun _ => forall₂_congr fun s _ => ?_
  rw [← Nat.not_lt]
  exact ⟨fun h hfront hlt => h hlt hfront, fun h hlt hfront => h hfront hlt⟩

/-- Without a space a token stands before the next one unless the two glue. -/
theorem stands_unspaced_iff {previous t : Token} (hprevious : Stands previous []) (ht : Stands t [])
    (hpair : previous.isSymbolIn (signs ++ tight) = true ∨ t.isSymbolIn closing = true)
    (y : List Char) : Stands previous (t.text.toList ++ y) ↔ glues previous t = false := by
  rw [glues_eq_false_iff]
  by_cases hsymbol : previous.kind = .symbol
  · rw [hprevious.append_symbol_iff hsymbol]
    constructor
    · intro h _ s hs hfront
      refine h s (List.mem_append_right _ hs) (hfront.trans ?_)
      rw [← List.append_assoc]
      exact List.prefix_append _ _
    · intro hno s hs hfront
      rcases List.mem_append.1 hs with hs | hs
      · exact absurd hfront (not_mark_isPrefix hprevious hsymbol hpair y s hs)
      · exact length_le_of_not_glues hprevious hsymbol ht hpair (hno hsymbol) hs hfront
  · refine ⟨fun _ h => absurd h hsymbol, fun _ => ?_⟩
    have hclosing : t.isSymbolIn closing = true :=
      hpair.resolve_left fun h => hsymbol (isSymbolIn_iff.1 h).1
    have hhead := isStop_of_closing _ (isSymbolIn_iff.1 hclosing).2
    obtain ⟨d, hd, hstop⟩ := (Option.any_eq_true _ _).1 hhead
    obtain ⟨rest, hrest⟩ := List.head?_eq_some_iff.1 hd
    rw [hrest]
    exact hprevious.append_stop hsymbol hstop _

/-- Without a space between them, the tokens of both are read exactly when they do not glue. -/
theorem scans_unspaced_iff {previous t : Token} (hprevious : Stands previous []) (ht : Stands t [])
    (hpair : previous.isSymbolIn (signs ++ tight) = true ∨ t.isSymbolIn closing = true)
    (y : List Char) (ts : List Token) :
    Scans (previous.text.toList ++ (t.text.toList ++ y)) (previous :: ts) ↔
      glues previous t = false ∧ Scans (t.text.toList ++ y) ts := by
  rw [← stands_unspaced_iff hprevious ht hpair y]
  constructor
  · intro h
    have hstands : Stands previous (t.text.toList ++ y) := by
      by_cases hsymbol : previous.kind = .symbol
      · exact hprevious.of_scans_symbol hsymbol
          (not_mark_isPrefix hprevious hsymbol hpair y) h
      · rw [stands_unspaced_iff hprevious ht hpair, glues_eq_false_iff]
        exact fun h => absurd h hsymbol
    exact ⟨hstands, hstands.scans_iff.1 h⟩
  · exact fun ⟨hstands, h⟩ => hstands.scans h

/-- Before a space every token stands. -/
theorem stands_space {t : Token} (h : Stands t []) (y : List Char) : Stands t (' ' :: y) := by
  by_cases hsymbol : t.kind = .symbol
  · rw [h.append_symbol_iff hsymbol]
    intro s hs hfront
    have hspace : ∀ s ∈ marks ++ symbols, ' ' ∉ s.toList := by decide
    exact ((prefix_append_cons_iff (hspace s hs)).1 hfront).length_le
  · exact h.append_stop hsymbol rfl y

theorem scans_spaced_iff {t : Token} (h : Stands t []) (y : List Char) (ts : List Token) :
    Scans (t.text.toList ++ ' ' :: y) (t :: ts) ↔ Scans y ts := by
  rw [(stands_space h y).scans_iff, scans_space_iff rfl]

/-- Texts of tokens with a space between any two are read as these tokens. -/
theorem scans_apart {ts : List Token} (h : ∀ t ∈ ts, Stands t []) :
    Scans ([' '].intercalate (ts.map (·.text.toList))) ts := by
  induction ts with
  | nil => exact .nil
  | cons t ts ih =>
    obtain ⟨ht, hts⟩ := List.forall_mem_cons.1 h
    cases ts with
    | nil =>
      have halone := ht.scans .nil
      rw [List.append_nil] at halone
      rwa [List.map_singleton, List.intercalate_singleton]
    | cons u us =>
      rw [List.map_cons, List.map_cons, List.intercalate_cons_cons, List.append_assoc]
      exact (scans_spaced_iff ht _ _).2 (ih hts)

/-! ## Whole texts -/

/-- The texts that follow a token, with their spaces, are read as the tokens they were made of
exactly when no two that stand together glue. -/
theorem scans_spacedAfter_iff {previous : Token} {unary : Bool} {ts : List Token}
    (hprevious : Stands previous []) (hts : ∀ t ∈ ts, Stands t [])
    (hunary : unary = true → previous.isSymbolIn signs = true) :
    Scans (previous.text.toList ++ (spacedAfter previous unary ts).flatMap String.toList)
      (previous :: ts) ↔ gluesAfter previous unary ts = false := by
  induction ts generalizing previous unary with
  | nil =>
    simp only [spacedAfter, List.flatMap_nil, gluesAfter, iff_true]
    exact hprevious.scans .nil
  | cons t ts ih =>
    have ht : Stands t [] := hts t (by simp)
    have hrest := ih ht (fun u hu => hts u (by simp [hu]))
      (@isSymbolIn_of_isUnary (some previous) t)
    rw [spacedAfter, gluesAfter, Bool.or_eq_false_iff]
    cases hspace : needsSpace previous unary t with
    | true =>
      simp only [if_true, List.flatMap_cons, Bool.not_true, Bool.false_and, true_and]
      exact (scans_spaced_iff hprevious _ _).trans hrest
    | false =>
      have hpair := unspaced_cases hunary hspace
      simp only [Bool.false_eq_true, if_false, List.flatMap_cons, Bool.not_false, Bool.true_and]
      rw [scans_unspaced_iff hprevious ht hpair, hrest]

theorem scans_format_iff {ts : List Token} (hts : ∀ t ∈ ts, Stands t []) :
    Scans (format ts).toList (ts.filter (!·.isDoc)) ↔ hasGlue (ts.filter (!·.isDoc)) = false := by
  have hcode : ∀ t ∈ ts.filter (!·.isDoc), Stands t [] := fun t ht => hts t (List.mem_filter.1 ht).1
  rw [format, String.toList_join]
  cases h : ts.filter (!·.isDoc) with
  | nil => simp [spaced, hasGlue, Scans.nil]
  | cons t rest =>
    rw [h] at hcode
    exact scans_spacedAfter_iff (hcode t (by simp)) (fun u hu => hcode u (by simp [hu]))
      fun h => isSymbolIn_of_isUnary h

end Token

/-- **Normalised text has the tokens it was made of**, less the documentation comments, exactly when
no two tokens that it writes together begin with a longer symbol. -/
theorem scan_format_iff {text : List Char} {ts : Run} (h : scan text = .ok ts) :
    (∃ us, scan ts.format.toList = .ok us ∧ us.tokens = ts.code.tokens) ↔
      Token.hasGlue ts.code.tokens = false := by
  have hstands : ∀ t ∈ ts.tokens, Stands t [] := (scans_iff.2 ⟨ts, h, rfl⟩).stands
  rw [← scans_iff, Run.tokens_code]
  exact Token.scans_format_iff hstands

/-- A sign before a signed value is read together with it: `- -$x` becomes `--$x`. -/
theorem scan_format_iff_signs :
    ∃ ts, scan "- -$x".toList = .ok ts ∧ ts.format = "--$x" ∧
      ¬∃ us, scan ts.format.toList = .ok us ∧ us.tokens = ts.code.tokens := by
  have hscan : scan "- -$x".toList =
      .ok [⟨.symbol "-", 0⟩, ⟨.symbol "-", 2⟩, ⟨⟨.variable, "$x"⟩, 3⟩] := by cbv
  refine ⟨_, hscan, by cbv, ?_⟩
  rw [scan_format_iff hscan]
  decide

/-- **Tokens written with one space between any two are read again**, documentation comments among
them. -/
theorem scan_intercalate_space {text : List Char} {ts : Run} (h : scan text = .ok ts) :
    ∃ us, scan (" ".intercalate (ts.map (·.text))).toList = .ok us ∧ us.tokens = ts.tokens := by
  have hstands : ∀ t ∈ ts.tokens, Stands t [] := (scans_iff.2 ⟨ts, h, rfl⟩).stands
  have htext : (" ".intercalate (ts.map (·.text))).toList =
      [' '].intercalate (ts.tokens.map (·.text.toList)) := by
    rw [String.toList_intercalate, Run.tokens, List.map_map, List.map_map]
    rfl
  rw [← scans_iff, htext]
  exact Token.scans_apart hstands

/-- The space takes the place of comments and attributes, and stands within `1.;` and `'a'.$x` too. -/
theorem scan_intercalate_space_comments :
    ∃ ts us, scan "<?php /** d */ 'a'.$x#[A]\n?->y[0x1F+1.;/*c*/".toList = .ok ts ∧
      " ".intercalate (ts.map (·.text)) = "/** d */ 'a' . $x ?-> y [ 0x1F + 1 . ;" ∧
      scan (" ".intercalate (ts.map (·.text))).toList = .ok us ∧ us.tokens = ts.tokens := by
  have hscan : scan "<?php /** d */ 'a'.$x#[A]\n?->y[0x1F+1.;/*c*/".toList =
      .ok [⟨⟨.doc, "/** d */"⟩, 6⟩, ⟨⟨.string, "'a'"⟩, 15⟩, ⟨.symbol ".", 18⟩,
        ⟨⟨.variable, "$x"⟩, 19⟩, ⟨.symbol "?->", 26⟩, ⟨⟨.name, "y"⟩, 29⟩, ⟨.symbol "[", 30⟩,
        ⟨⟨.int, "0x1F"⟩, 31⟩, ⟨.symbol "+", 35⟩, ⟨⟨.int, "1"⟩, 36⟩, ⟨.symbol ".", 37⟩,
        ⟨.symbol ";", 38⟩] := by cbv
  obtain ⟨us, hus, htokens⟩ := scan_intercalate_space hscan
  exact ⟨_, us, hscan, by cbv, hus, htokens⟩

end CurryGen

import CurryGen.Tree.Statement
import Mathlib.Data.List.Chain
import Mathlib.Data.List.TakeWhile

/-!
# Moving lines

`reflow m k` is what becomes of a text when its lines lose the blanks at their ends, and those after
the first lose up to `m` characters of indentation and get `k` spaces in front unless they are
empty.

* `intercalate_movedLeft`: the lines of `Statement.movedLeft`, indented again, are those of `reflow`.
* `reflow_append`: past a character that is no blank, a text is changed independently of what
  precedes it.
* `reflow_eq_self_iff`: a text stays as it is exactly when each of its line feeds keeps its
  neighbours.
-/

namespace CurryGen.Statement

open Text

/-- Whether only blanks stand before the next line feed or the end. -/
def atLineEnd (cs : List Char) : Bool := (cs.takeWhile (· != '\n')).all isBlank

/-- The spaces put in front of a line. -/
def pad (k : Nat) (line : List Char) : List Char :=
  if atLineEnd line then [] else List.replicate k ' '

theorem length_unindent_le (m : Nat) (cs : List Char) : (unindent m cs).length ≤ cs.length := by
  rw [unindent, List.length_drop]
  exact Nat.sub_le _ _

/-- A text with its lines moved. -/
def reflow (m k : Nat) : List Char → List Char
  | [] => []
  | c :: cs =>
    if c = '\n' then '\n' :: (pad k cs ++ reflow m k (unindent m cs))
    else if atLineEnd (c :: cs) then reflow m k cs
    else c :: reflow m k cs
termination_by cs => cs.length
decreasing_by
  · exact Nat.lt_succ_of_le (length_unindent_le m cs)
  · simp
  · simp

variable {m k : Nat}

/-! ## Character by character -/

theorem reflow_nil : reflow m k [] = [] := by rw [reflow]

theorem reflow_newline (cs : List Char) :
    reflow m k ('\n' :: cs) = '\n' :: (pad k cs ++ reflow m k (unindent m cs)) := by
  rw [reflow, if_pos rfl]

theorem reflow_dropped {c : Char} {cs : List Char} (hc : c ≠ '\n')
    (h : atLineEnd (c :: cs) = true) : reflow m k (c :: cs) = reflow m k cs := by
  rw [reflow, if_neg hc, if_pos h]

theorem reflow_kept {c : Char} {cs : List Char} (hc : c ≠ '\n')
    (h : atLineEnd (c :: cs) = false) : reflow m k (c :: cs) = c :: reflow m k cs := by
  rw [reflow, if_neg hc, h, if_neg Bool.false_ne_true]

theorem atLineEnd_newline (cs : List Char) : atLineEnd ('\n' :: cs) = true := by
  simp [atLineEnd]

theorem atLineEnd_cons {c : Char} (hc : c ≠ '\n') (cs : List Char) :
    atLineEnd (c :: cs) = (isBlank c && atLineEnd cs) := by
  simp [atLineEnd, hc]

theorem isBlank_newline : isBlank '\n' = true := by decide

theorem ne_newline_of_nonblank {c : Char} (hc : isBlank c = false) : c ≠ '\n' := by
  rintro rfl
  cases hc

theorem atLineEnd_nonblank {c : Char} (hc : isBlank c = false) (cs : List Char) :
    atLineEnd (c :: cs) = false := by
  rw [atLineEnd_cons (ne_newline_of_nonblank hc), hc, Bool.false_and]

/-- A character that is no blank is kept. -/
theorem reflow_nonblank {c : Char} (hc : isBlank c = false) (cs : List Char) :
    reflow m k (c :: cs) = c :: reflow m k cs :=
  reflow_kept (ne_newline_of_nonblank hc) (atLineEnd_nonblank hc cs)

/-- Induction along a text as `reflow` goes through it. -/
theorem reflowInduction (m : Nat) {P : List Char → Prop} (nil : P [])
    (newline : ∀ cs, P cs → P (unindent m cs) → P ('\n' :: cs))
    (dropped : ∀ c cs, c ≠ '\n' → isBlank c = true → atLineEnd cs = true → P cs → P (c :: cs))
    (kept : ∀ c cs, c ≠ '\n' → atLineEnd (c :: cs) = false → P cs → P (c :: cs)) (cs : List Char) :
    P cs := by
  induction hn : cs.length using Nat.strongRecOn generalizing cs with
  | ind n ih =>
    cases cs with
    | nil => exact nil
    | cons c cs =>
      rw [List.length_cons] at hn
      have hcs : P cs := ih cs.length (by omega) cs rfl
      by_cases hc : c = '\n'
      · subst hc
        have hle := length_unindent_le m cs
        exact newline cs hcs (ih (unindent m cs).length (by omega) _ rfl)
      · cases h : atLineEnd (c :: cs) with
        | true =>
          have hboth := h
          rw [atLineEnd_cons hc, Bool.and_eq_true] at hboth
          exact dropped c cs hc hboth.1 hboth.2 hcs
        | false => exact kept c cs hc h hcs

/-! ## Parts of a text -/

theorem unindent_zero (cs : List Char) : unindent 0 cs = cs := by simp [unindent]

theorem unindent_nil (m : Nat) : unindent m [] = [] := by simp [unindent]

theorem unindent_succ (m : Nat) (c : Char) (cs : List Char) :
    unindent (m + 1) (c :: cs) = if isIndent c then unindent m cs else c :: cs := by
  simp only [unindent, List.take_succ_cons, List.takeWhile_cons]
  split <;> simp

theorem isBlank_of_isIndent {c : Char} (h : isIndent c = true) : isBlank c = true := by
  rcases Bool.or_eq_true_iff.1 h with h | h <;> rw [eq_of_beq h] <;> rfl

theorem ne_newline_of_isIndent {c : Char} (h : isIndent c = true) : c ≠ '\n' := by
  rintro rfl
  cases h

/-- What is taken off the front of a line is indentation. -/
theorem exists_indentation (m : Nat) (cs : List Char) :
    ∃ b, cs = b ++ unindent m cs ∧ ∀ c ∈ b, isIndent c = true := by
  induction cs generalizing m with
  | nil => exact ⟨[], by rw [unindent_nil]; rfl, by simp⟩
  | cons c cs ih =>
    cases m with
    | zero => exact ⟨[], by rw [unindent_zero]; rfl, by simp⟩
    | succ m =>
      rw [unindent_succ]
      split
      · rename_i hc
        obtain ⟨b, hb, hindent⟩ := ih m
        refine ⟨c :: b, by rw [List.cons_append, ← hb], ?_⟩
        intro d hd
        rcases List.mem_cons.1 hd with rfl | hd
        · exact hc
        · exact hindent d hd
      · exact ⟨[], rfl, by simp⟩

/-- Whether the last character of a text is no blank. -/
def endsNonblank (u : List Char) : Bool := u.getLast?.any (!isBlank ·)

theorem endsNonblank_cons {c : Char} {u : List Char} (hu : u ≠ []) :
    endsNonblank (c :: u) = endsNonblank u := by
  cases u with
  | nil => exact absurd rfl hu
  | cons d ds => rw [endsNonblank, List.getLast?_cons_cons, endsNonblank]

theorem endsNonblank_of_cons {c : Char} {u : List Char} (hc : isBlank c = true)
    (h : endsNonblank (c :: u) = true) : endsNonblank u = true := by
  cases u with
  | nil => simp [endsNonblank, hc] at h
  | cons d ds => rwa [endsNonblank_cons (by simp)] at h

theorem atLineEnd_append {u : List Char} (h : endsNonblank u = true) (rest : List Char) :
    atLineEnd (u ++ rest) = atLineEnd u := by
  induction u with
  | nil => cases h
  | cons c u ih =>
    by_cases hc : c = '\n'
    · rw [hc, List.cons_append, atLineEnd_newline, atLineEnd_newline]
    · rw [List.cons_append, atLineEnd_cons hc, atLineEnd_cons hc]
      cases hblank : isBlank c with
      | true => rw [ih (endsNonblank_of_cons hblank h)]
      | false => rw [Bool.false_and, Bool.false_and]

theorem pad_append {u : List Char} (h : endsNonblank u = true) (rest : List Char) :
    pad k (u ++ rest) = pad k u := by
  rw [pad, pad, atLineEnd_append h]

theorem unindent_append {u : List Char} (h : endsNonblank u = true) (rest : List Char) (m : Nat) :
    unindent m (u ++ rest) = unindent m u ++ rest := by
  induction u generalizing m with
  | nil => cases h
  | cons c u ih =>
    cases m with
    | zero => rw [unindent_zero, unindent_zero]
    | succ m =>
      rw [List.cons_append, unindent_succ, unindent_succ]
      split
      · rename_i hc
        exact ih (endsNonblank_of_cons (isBlank_of_isIndent hc) h) m
      · rfl

theorem endsNonblank_unindent {u : List Char} (h : endsNonblank u = true) (m : Nat) :
    endsNonblank (unindent m u) = true := by
  induction u generalizing m with
  | nil => cases h
  | cons c u ih =>
    cases m with
    | zero => rwa [unindent_zero]
    | succ m =>
      rw [unindent_succ]
      split
      · rename_i hc
        exact ih (endsNonblank_of_cons (isBlank_of_isIndent hc) h) m
      · exact h

/-- Past a character that is no blank, a text changes independently of what precedes it. -/
theorem reflow_append {u : List Char} (h : endsNonblank u = true) (rest : List Char) :
    reflow m k (u ++ rest) = reflow m k u ++ reflow m k rest := by
  induction u using reflowInduction m with
  | nil => cases h
  | newline cs _ ih =>
    have hcs := endsNonblank_of_cons isBlank_newline h
    rw [List.cons_append, reflow_newline, reflow_newline, pad_append hcs, unindent_append hcs,
      ih (endsNonblank_unindent hcs m), List.cons_append, List.append_assoc]
  | dropped c cs hc hblank hend ih =>
    have hcs := endsNonblank_of_cons hblank h
    have hend' : atLineEnd (c :: cs) = true := by rw [atLineEnd_cons hc, hblank, hend]; rfl
    rw [reflow_dropped hc hend', ← ih hcs]
    refine reflow_dropped hc ?_
    rw [← hend']
    exact atLineEnd_append h rest
  | kept c cs hc hend ih =>
    have hboth : reflow m k (c :: cs ++ rest) = c :: reflow m k (cs ++ rest) := by
      refine reflow_kept hc ?_
      rw [← hend]
      exact atLineEnd_append h rest
    rw [hboth, reflow_kept hc hend]
    cases cs with
    | nil => rw [reflow_nil]; rfl
    | cons d ds =>
      rw [endsNonblank_cons (by simp)] at h
      rw [ih h]
      rfl

/-! ## Lines -/

theorem dropTrailingBlanks_cons (c : Char) (cs : List Char) :
    dropTrailingBlanks (c :: cs) =
      if (c :: cs).all isBlank then [] else c :: dropTrailingBlanks cs := by
  have hnil : cs.reverse.dropWhile isBlank = [] ↔ cs.all isBlank = true := by
    rw [List.dropWhile_eq_nil_iff, ← List.all_eq_true, List.all_reverse]
  simp only [dropTrailingBlanks, dropBlanks, List.reverse_cons, List.dropWhile_append,
    List.all_cons, List.isEmpty_iff, Bool.and_eq_true]
  by_cases hall : cs.all isBlank = true
  · rw [if_pos (hnil.2 hall), List.dropWhile_cons, hnil.2 hall]
    cases hc : isBlank c with
    | true => simp [hall]
    | false => simp
  · rw [if_neg (fun h => hall (hnil.1 h)), if_neg (fun h => hall h.2), List.reverse_append]
    rfl

theorem atLineEnd_line {l : List Char} (hl : '\n' ∉ l) : atLineEnd l = l.all isBlank := by
  rw [atLineEnd, List.takeWhile_eq_self_iff.2]
  intro c hc
  simp only [bne_iff_ne, ne_eq]
  rintro rfl
  exact hl hc

theorem atLineEnd_line_newline {l : List Char} (hl : '\n' ∉ l) (z : List Char) :
    atLineEnd (l ++ '\n' :: z) = l.all isBlank := by
  induction l with
  | nil => exact atLineEnd_newline z
  | cons c l ih =>
    simp only [List.mem_cons, not_or] at hl
    rw [List.cons_append, atLineEnd_cons (Ne.symm hl.1), ih hl.2, List.all_cons]

/-- A text without a line feed loses the blanks at its end. -/
theorem reflow_line {l : List Char} (hl : '\n' ∉ l) : reflow m k l = dropTrailingBlanks l := by
  induction l with
  | nil => exact reflow_nil
  | cons c l ih =>
    have hend := atLineEnd_line hl
    simp only [List.mem_cons, not_or] at hl
    rw [dropTrailingBlanks_cons, ← hend]
    cases h : atLineEnd (c :: l) with
    | true =>
      rw [reflow_dropped (Ne.symm hl.1) h, ih hl.2, if_pos rfl]
      rw [atLineEnd_cons (Ne.symm hl.1), Bool.and_eq_true, atLineEnd_line hl.2] at h
      cases l with
      | nil => rfl
      | cons d ds => rw [dropTrailingBlanks_cons, if_pos h.2]
    | false =>
      rw [reflow_kept (Ne.symm hl.1) h, ih hl.2]
      rfl

/-- A line loses the blanks before its line feed. -/
theorem reflow_line_newline {l : List Char} (hl : '\n' ∉ l) (z : List Char) :
    reflow m k (l ++ '\n' :: z) = dropTrailingBlanks l ++ reflow m k ('\n' :: z) := by
  induction l with
  | nil => rfl
  | cons c l ih =>
    have hend := atLineEnd_line_newline hl z
    simp only [List.mem_cons, not_or] at hl
    rw [dropTrailingBlanks_cons, ← hend]
    cases h : atLineEnd (c :: l ++ '\n' :: z) with
    | true =>
      have hboth : reflow m k (c :: l ++ '\n' :: z) = reflow m k (l ++ '\n' :: z) :=
        reflow_dropped (Ne.symm hl.1) h
      rw [List.cons_append, atLineEnd_cons (Ne.symm hl.1), Bool.and_eq_true,
        atLineEnd_line_newline hl.2] at h
      rw [hboth, ih hl.2, if_pos rfl]
      cases l with
      | nil => rfl
      | cons d ds =>
        rw [dropTrailingBlanks_cons, if_pos h.2]
    | false =>
      have hboth : reflow m k (c :: l ++ '\n' :: z) = c :: reflow m k (l ++ '\n' :: z) :=
        reflow_kept (Ne.symm hl.1) h
      rw [hboth, ih hl.2]
      rfl

/-- A text is a line, or a line and what follows its line feed. -/
theorem line_or_more (cs : List Char) :
    ∃ l, '\n' ∉ l ∧ (cs = l ∨ ∃ z, cs = l ++ '\n' :: z) := by
  induction cs with
  | nil => exact ⟨[], by simp, .inl rfl⟩
  | cons c cs ih =>
    by_cases hc : c = '\n'
    · exact ⟨[], by simp, .inr ⟨cs, by rw [hc]; rfl⟩⟩
    · obtain ⟨l, hl, rfl | ⟨z, rfl⟩⟩ := ih
      · exact ⟨c :: cs, by simp [hl, Ne.symm hc], .inl rfl⟩
      · exact ⟨c :: l, by simp [hl, Ne.symm hc], .inr ⟨z, rfl⟩⟩

theorem dropTrailingBlanks_isPrefix (l : List Char) : dropTrailingBlanks l <+: l := by
  rw [dropTrailingBlanks, ← List.reverse_suffix, List.reverse_reverse]
  exact List.dropWhile_suffix _

/-- A moved text begins as the text does, up to a line feed or the end. -/
theorem exists_reflow_front (m k : Nat) (cs : List Char) :
    ∃ v y, cs = v ++ y ∧ (reflow m k cs = v ∨ ∃ z, reflow m k cs = v ++ '\n' :: z) := by
  obtain ⟨l, hl, rfl | ⟨z, rfl⟩⟩ := line_or_more cs
  · obtain ⟨y, hy⟩ := dropTrailingBlanks_isPrefix cs
    exact ⟨_, y, hy.symm, .inl (reflow_line hl)⟩
  · obtain ⟨y, hy⟩ := dropTrailingBlanks_isPrefix l
    refine ⟨dropTrailingBlanks l, y ++ '\n' :: z, by rw [← List.append_assoc, hy], .inr ?_⟩
    rw [reflow_line_newline hl, reflow_newline]
    exact ⟨_, rfl⟩

theorem reflow_atLineEnd {cs : List Char} (h : atLineEnd cs = true) :
    reflow m k cs = [] ∨ ∃ z, reflow m k cs = '\n' :: z := by
  induction cs using reflowInduction m with
  | nil => exact .inl reflow_nil
  | newline cs _ _ => exact .inr ⟨_, reflow_newline cs⟩
  | dropped c cs hc _ hend ih =>
    rw [reflow_dropped hc h]
    exact ih hend
  | kept c cs hc hend _ =>
    rw [h] at hend
    cases hend

/-- A moved text begins with a character other than a line feed only where the text does. -/
theorem head?_of_reflow {cs : List Char} {c : Char} (hc : c ≠ '\n')
    (h : (reflow m k cs).head? = some c) : cs.head? = some c := by
  cases hend : atLineEnd cs with
  | true =>
    rcases reflow_atLineEnd hend with hnil | ⟨z, hz⟩
    · rw [hnil] at h
      cases h
    · rw [hz] at h
      exact absurd (Option.some.inj h).symm hc
  | false =>
    cases cs with
    | nil => cases hend
    | cons d ds =>
      have hd : d ≠ '\n' := by
        rintro rfl
        rw [atLineEnd_newline] at hend
        cases hend
      rw [reflow_kept hd hend] at h
      exact h

/-! ## What stays -/

theorem isBlank_of_mem_pad {c : Char} {line : List Char} (h : c ∈ pad k line) :
    isBlank c = true := by
  rw [pad] at h
  split at h
  · cases h
  · rw [(List.mem_replicate.1 h).2]
    rfl

/-- Only blanks come and go. -/
theorem filter_reflow (u : List Char) :
    (reflow m k u).filter (!isBlank ·) = u.filter (!isBlank ·) := by
  have inert {b : List Char} (hb : ∀ c ∈ b, isBlank c = true) : b.filter (!isBlank ·) = [] :=
    List.filter_eq_nil_iff.2 fun c hc => by simp [hb c hc]
  induction u using reflowInduction m with
  | nil => rw [reflow_nil]
  | newline cs _ ih =>
    obtain ⟨b, hb, hindent⟩ := exists_indentation m cs
    have hcs : cs.filter (!isBlank ·) = (unindent m cs).filter (!isBlank ·) := by
      conv_lhs => rw [hb]
      rw [List.filter_append, inert fun c hc => isBlank_of_isIndent (hindent c hc),
        List.nil_append]
    rw [reflow_newline, List.filter_cons, List.filter_cons, List.filter_append,
      inert fun _ => isBlank_of_mem_pad, ih, List.nil_append, hcs]
  | dropped c cs hc hblank hend ih =>
    rw [reflow_dropped hc (by rw [atLineEnd_cons hc, hblank, hend]; rfl), ih,
      List.filter_cons_of_neg (by simp [hblank])]
  | kept c cs hc hend ih => rw [reflow_kept hc hend, List.filter_cons, List.filter_cons, ih]

theorem length_reflow_le (m : Nat) (u : List Char) : (reflow m 0 u).length ≤ u.length := by
  induction u using reflowInduction m with
  | nil => rw [reflow_nil]
  | newline cs _ ih =>
    have hle := length_unindent_le m cs
    simp only [reflow_newline, pad, List.replicate_zero, ite_self, List.nil_append,
      List.length_cons]
    omega
  | dropped c cs hc hblank hend ih =>
    rw [reflow_dropped hc (by rw [atLineEnd_cons hc, hblank, hend]; rfl)]
    exact Nat.le_succ_of_le ih
  | kept c cs hc hend ih =>
    rw [reflow_kept hc hend]
    exact Nat.succ_le_succ ih

/-- A text that is read where it was moved to was not moved. -/
theorem reflow_eq_self_of_isPrefix {u v : List Char} (h : endsNonblank u = true)
    (hfront : u <+: reflow m 0 u ++ v) : reflow m 0 u = u := by
  obtain ⟨x, hx⟩ :=
    List.prefix_of_prefix_length_le (List.prefix_append _ v) hfront (length_reflow_le m u)
  -- the rest of `u` is blank, but `u` ends with a character that is none
  have hnil : x.filter (!isBlank ·) = [] := by
    have hfilter := filter_reflow (m := m) (k := 0) u
    conv_rhs at hfilter => rw [← hx]
    rw [List.filter_append] at hfilter
    exact List.self_eq_append_right.1 hfilter
  obtain ⟨c, hlast, hc⟩ := (Option.any_eq_true _ _).1 h
  rw [← hx, List.getLast?_append] at hlast
  cases hend : x.getLast? with
  | none => rwa [List.getLast?_eq_none_iff.1 hend, List.append_nil] at hx
  | some d =>
    rw [hend] at hlast
    obtain rfl : d = c := Option.some.inj hlast
    have hmem : d ∈ x.filter (!isBlank ·) := List.mem_filter.2 ⟨List.mem_of_getLast? hend, hc⟩
    rw [hnil] at hmem
    cases hmem

/-- Whether two neighbouring characters keep the line feed that one of them is where it is: no
blank stands before it, and after it none of the indentation that goes. -/
def KeepsBreak (m : Nat) (a b : Char) : Prop :=
  (b = '\n' → a = '\n' ∨ isBlank a = false) ∧ (a = '\n' → m = 0 ∨ isIndent b = false)

instance : DecidableRel (KeepsBreak m) := fun a b =>
  inferInstanceAs (Decidable ((b = '\n' → a = '\n' ∨ isBlank a = false) ∧
    (a = '\n' → m = 0 ∨ isIndent b = false)))

theorem unindent_eq_self_iff {cs : List Char} :
    unindent m cs = cs ↔ m = 0 ∨ ∀ c ∈ cs.head?, isIndent c = false := by
  cases cs with
  | nil => simp [unindent_nil]
  | cons c cs =>
    cases m with
    | zero => simp [unindent_zero]
    | succ m =>
      rw [unindent_succ]
      cases hc : isIndent c with
      | true =>
        have hlt : unindent m cs ≠ c :: cs := by
          intro heq
          have hle := length_unindent_le m cs
          rw [heq, List.length_cons] at hle
          omega
        simp [hlt, hc]
      | false => simp [hc]

theorem reflow_ne_cons (m : Nat) (c : Char) (cs : List Char) : reflow m 0 cs ≠ c :: cs := by
  intro heq
  have hle := length_reflow_le m cs
  rw [heq, List.length_cons] at hle
  omega

/-- After a line feed a text stays as it is when no indentation goes and the rest stays. -/
theorem reflow_newline_eq_iff {cs : List Char} :
    reflow m 0 ('\n' :: cs) = '\n' :: cs ↔
      (∀ d ∈ cs.head?, KeepsBreak m '\n' d) ∧ reflow m 0 cs = cs := by
  have hpad : pad 0 cs = [] := by simp [pad]
  have hbreak : (∀ d ∈ cs.head?, KeepsBreak m '\n' d) ↔ unindent m cs = cs := by
    rw [unindent_eq_self_iff]
    simp only [KeepsBreak, true_or, implies_true, true_and, forall_const]
    by_cases hm : m = 0 <;> simp [hm]
  rw [reflow_newline, hpad, List.nil_append, hbreak, List.cons.injEq]
  simp only [true_and]
  constructor
  · intro heq
    obtain ⟨b, hb, -⟩ := exists_indentation m cs
    have hle := length_reflow_le m (unindent m cs)
    have hlength := congrArg List.length hb
    rw [heq] at hle
    rw [List.length_append] at hlength
    have hnil : b = [] := List.eq_nil_of_length_eq_zero (by omega)
    have hself : unindent m cs = cs := by
      rw [hnil, List.nil_append] at hb
      exact hb.symm
    exact ⟨hself, by rwa [hself] at heq⟩
  · intro hright
    obtain ⟨hindent, heq⟩ := hright
    rw [hindent, heq]

/-- Elsewhere it stays when its first character is not dropped and the rest stays. -/
theorem reflow_cons_eq_iff {c : Char} {cs : List Char} (hc : c ≠ '\n')
    (h : endsNonblank (c :: cs) = true) :
    reflow m 0 (c :: cs) = c :: cs ↔
      (∀ d ∈ cs.head?, KeepsBreak m c d) ∧ reflow m 0 cs = cs := by
  have hbreak (d : Char) : KeepsBreak m c d ↔ (d = '\n' → isBlank c = false) := by
    simp [KeepsBreak, hc]
  simp only [hbreak]
  cases hend : atLineEnd (c :: cs) with
  | true =>
    rw [reflow_dropped hc hend]
    rw [atLineEnd_cons hc, Bool.and_eq_true] at hend
    refine ⟨fun heq => (reflow_ne_cons m c cs heq).elim, fun ⟨hhead, heq⟩ => ?_⟩
    -- a blank at the end of its line is followed by another, which goes
    cases cs with
    | nil => simp [endsNonblank, hend.1] at h
    | cons d ds =>
      by_cases hd : d = '\n'
      · have := hhead d rfl hd
        rw [hend.1] at this
        cases this
      · rw [reflow_dropped hd hend.2] at heq
        exact (reflow_ne_cons m d ds heq).elim
  | false =>
    rw [reflow_kept hc hend, List.cons.injEq]
    refine ⟨fun ⟨_, heq⟩ => ⟨?_, heq⟩, fun ⟨_, heq⟩ => ⟨rfl, heq⟩⟩
    rintro d hd rfl
    obtain ⟨ds, rfl⟩ := List.head?_eq_some_iff.1 hd
    rwa [atLineEnd_cons hc, atLineEnd_newline, Bool.and_true] at hend

/-- A text stays as it is exactly when each of its line feeds keeps its neighbours. -/
theorem reflow_eq_self_iff {u : List Char} (h : endsNonblank u = true) :
    reflow m 0 u = u ↔ u.IsChain (KeepsBreak m) := by
  induction u with
  | nil => cases h
  | cons c cs ih =>
    have hrest : reflow m 0 cs = cs ↔ cs.IsChain (KeepsBreak m) := by
      by_cases hnil : cs = []
      · simp [hnil, reflow_nil]
      · exact ih (by rwa [endsNonblank_cons hnil] at h)
    rw [List.isChain_cons, ← hrest]
    by_cases hc : c = '\n'
    · subst hc
      exact reflow_newline_eq_iff
    · exact reflow_cons_eq_iff hc h

/-- A text without a line feed stays as it is. -/
theorem reflow_eq_self_of_notMem {u : List Char} (h : endsNonblank u = true) (hu : '\n' ∉ u) :
    reflow m k u = u := by
  obtain ⟨c, hlast, hc⟩ := (Option.any_eq_true _ _).1 h
  obtain ⟨rest, hrest⟩ := List.head?_eq_some_iff.1 (List.head?_reverse.trans hlast)
  rw [reflow_line hu, dropTrailingBlanks, hrest, dropBlanks,
    List.dropWhile_cons_of_neg (by simpa using hc), ← hrest, List.reverse_reverse]

/-! ## The lines of a run -/

/-- A line with spaces in front, unless it is empty. -/
def padded (k : Nat) (line : List Char) : List Char :=
  if line = [] then [] else List.replicate k ' ' ++ line

theorem pieces_line {l : List Char} (hl : '\n' ∉ l) : pieces (· == '\n') l = [l] := by
  induction l with
  | nil => rfl
  | cons c l ih =>
    simp only [List.mem_cons, not_or] at hl
    rw [pieces, if_neg (by simpa using Ne.symm hl.1), ih hl.2]

theorem pieces_line_newline {l : List Char} (hl : '\n' ∉ l) (z : List Char) :
    pieces (· == '\n') (l ++ '\n' :: z) = l :: pieces (· == '\n') z := by
  induction l with
  | nil => rw [List.nil_append, pieces, if_pos (by simp)]
  | cons c l ih =>
    simp only [List.mem_cons, not_or] at hl
    rw [List.cons_append, pieces, if_neg (by simpa using Ne.symm hl.1), ih hl.2]

/-- Indentation comes off the first line. -/
theorem pieces_unindent {z q : List Char} {qs : List (List Char)}
    (h : pieces (· == '\n') z = q :: qs) (m : Nat) :
    pieces (· == '\n') (unindent m z) = unindent m q :: qs := by
  induction z generalizing m q with
  | nil =>
    cases h
    rw [unindent_nil]
    rfl
  | cons c z ih =>
    cases m with
    | zero => rwa [unindent_zero, unindent_zero]
    | succ m =>
      rw [unindent_succ]
      split
      · rename_i hc
        have hne : (c == '\n') = false := by simpa using ne_newline_of_isIndent hc
        rw [pieces, hne, if_neg Bool.false_ne_true] at h
        cases hz : pieces (· == '\n') z with
        | nil => exact absurd hz (pieces_ne_nil _ z)
        | cons p ps =>
          rw [hz] at h
          cases h
          rw [unindent_succ, if_pos hc]
          exact ih hz m
      · rename_i hc
        have hq : unindent (m + 1) q = q := by
          refine unindent_eq_self_iff.2 (.inr fun d hd => ?_)
          rw [pieces] at h
          split at h
          · cases h
            cases hd
          · split at h <;> cases h <;> cases hd <;> simpa using hc
        rw [hq, h]

theorem atLineEnd_unindent (m : Nat) (cs : List Char) :
    atLineEnd (unindent m cs) = atLineEnd cs := by
  obtain ⟨b, hb, hindent⟩ := exists_indentation m cs
  have inert {b : List Char} (h : ∀ c ∈ b, isIndent c = true) (z : List Char) :
      atLineEnd (b ++ z) = atLineEnd z := by
    induction b with
    | nil => rfl
    | cons c b ih =>
      have hc := h c (by simp)
      rw [List.cons_append, atLineEnd_cons (ne_newline_of_isIndent hc),
        ih fun d hd => h d (by simp [hd]), isBlank_of_isIndent hc, Bool.true_and]
  conv_rhs => rw [hb]
  rw [inert hindent]

theorem padded_dropTrailingBlanks (k : Nat) {line text : List Char}
    (h : atLineEnd text = line.all isBlank) :
    padded k (dropTrailingBlanks line) = pad k text ++ dropTrailingBlanks line := by
  rw [padded, pad, h]
  cases line with
  | nil => rfl
  | cons c cs =>
    rw [dropTrailingBlanks_cons]
    split
    · rfl
    · simp

/-- The lines of a text, moved and joined again, without the care for an empty last one. -/
theorem exists_pieces_reflow {text : List Char} (h : endsNonblank text = true) (m k : Nat) :
    ∃ line rest, pieces (· == '\n') text = line :: rest ∧ (line :: rest).getLast? ≠ some [] ∧
      ['\n'].intercalate (padded k (dropTrailingBlanks line) ::
        rest.map fun line => padded k (dropTrailingBlanks (unindent m line))) =
      pad k text ++ reflow m k text := by
  induction hn : text.length using Nat.strongRecOn generalizing text with
  | ind n ih =>
    obtain ⟨l, hl, rfl | ⟨z, rfl⟩⟩ := line_or_more text
    · refine ⟨text, [], pieces_line hl, ?_, ?_⟩
      · rintro hnil
        obtain rfl : text = [] := Option.some.inj hnil
        cases h
      · rw [List.map_nil, List.intercalate_singleton, reflow_line hl,
          padded_dropTrailingBlanks k (atLineEnd_line hl)]
    · have hz : endsNonblank z = true := by
        have hne : z ≠ [] := by
          rintro rfl
          simp [endsNonblank, isBlank_newline] at h
        rw [endsNonblank, List.getLast?_append_of_ne_nil _ (by simp),
          List.getLast?_cons_of_ne_nil hne] at h
        exact h
      have hlt : (unindent m z).length < n := by
        have hle := length_unindent_le m z
        rw [← hn, List.length_append, List.length_cons]
        omega
      obtain ⟨line, rest, hpieces, hlast, hjoin⟩ :=
        ih _ hlt (endsNonblank_unindent hz m) rfl
      cases hq : pieces (· == '\n') z with
      | nil => exact absurd hq (pieces_ne_nil _ z)
      | cons q qs =>
        have hmoved := pieces_unindent hq m
        rw [hpieces] at hmoved
        cases hmoved
        refine ⟨l, q :: rest, by rw [pieces_line_newline hl, hq], ?_, ?_⟩
        · rw [List.getLast?_cons_cons]
          cases rest with
          | nil =>
            intro hnil
            obtain rfl : q = [] := Option.some.inj hnil
            rw [unindent_nil] at hlast
            exact hlast rfl
          | cons p ps =>
            rw [List.getLast?_cons_cons] at hlast ⊢
            exact hlast
        · rw [List.map_cons, List.intercalate_cons_cons, hjoin, reflow_line_newline hl,
            reflow_newline, padded_dropTrailingBlanks k (atLineEnd_line_newline hl z)]
          simp [pad, atLineEnd_unindent]

/-- The lines of a text, moved left, with spaces in front and joined again. -/
theorem intercalate_movedLeft {text : List Char} (h : endsNonblank text = true) (m k : Nat) :
    ['\n'].intercalate ((movedLeft m text).map (padded k)) = pad k text ++ reflow m k text := by
  obtain ⟨line, rest, hpieces, hlast, hjoin⟩ := exists_pieces_reflow h m k
  have hlines : Text.lines text = line :: rest := by
    rw [Text.lines]
    simp only [hpieces]
    rw [if_neg hlast]
  rw [movedLeft, hlines, ← hjoin, List.map_cons, List.map_map]
  rfl

end CurryGen.Statement

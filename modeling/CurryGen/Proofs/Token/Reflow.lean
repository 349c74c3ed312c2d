import CurryGen.Proofs.Text.Reflow
import CurryGen.Proofs.Token.Whole

/-!
# Reading moved lines

Moving the lines of a text (`Statement.reflow`) changes blanks around its line feeds. Between tokens,
in comments and in attributes that does not matter. In a string it does.

* `exists_scans_reflow`: a moved text has the tokens of the text, up to the texts of documentation
  comments, if its strings stay as they are.
* `reflow_eq_self_of_scans`: and only then.
-/

namespace CurryGen.Scan

open Text Statement

/-! ## Comments and attributes when moved -/

variable {m k : Nat}

theorem closeComment_blanks {b : List Char} (hb : ∀ c ∈ b, isBlank c = true) (cs : List Char) :
    closeComment (b ++ cs) = (closeComment cs).map (· + b.length) := by
  induction b with
  | nil => simp
  | cons c b ih =>
    have hc : c ≠ '*' := ne_of_isBlank (hb c (by simp)) rfl
    rw [List.cons_append, closeComment_cons fun h => hc h.1, ih fun d hd => hb d (by simp [hd]),
      Option.map_map]
    rfl

theorem eq_some_of_map_add {o : Option Nat} {n j : Nat} (h : o.map (· + j) = some (n + j)) :
    o = some n := by
  obtain ⟨i, hi, heq⟩ := Option.map_eq_some_iff.1 h
  rw [hi, Nat.add_right_cancel heq]

theorem closeComment_reflow {cs : List Char} (h : closeComment cs = some cs.length) :
    closeComment (reflow m k cs) = some (reflow m k cs).length := by
  induction cs using reflowInduction m with
  | nil => cases h
  | newline cs _ ih =>
    rw [closeComment_cons (by simp), List.length_cons] at h
    obtain ⟨b, hb, hindent⟩ := exists_indentation m cs
    have hcs := eq_some_of_map_add h
    rw [hb, closeComment_blanks fun d hd => isBlank_of_isIndent (hindent d hd), List.length_append,
      Nat.add_comm] at hcs
    have hrest := ih (eq_some_of_map_add hcs)
    rw [reflow_newline, closeComment_cons (by simp), closeComment_blanks fun _ => isBlank_of_mem_pad,
      hrest]
    simp only [Option.map_some, List.length_cons, List.length_append]
    rw [Nat.add_comm (pad k cs).length]
  | dropped c cs hc hblank hend ih =>
    have hstar : c ≠ '*' := ne_of_isBlank hblank rfl
    rw [closeComment_cons fun h => hstar h.1, List.length_cons] at h
    rw [reflow_dropped hc (by rw [atLineEnd_cons hc, hblank, hend]; rfl)]
    exact ih (eq_some_of_map_add h)
  | kept c cs hc hend ih =>
    rw [reflow_kept hc hend]
    by_cases hclose : c = '*' ∧ cs.head? = some '/'
    · rw [closeComment_close hclose] at h
      obtain ⟨rfl, hhead⟩ := hclose
      obtain ⟨rest, rfl⟩ := List.head?_eq_some_iff.1 hhead
      obtain rfl : rest = [] := List.eq_nil_of_length_eq_zero (by simpa using h)
      rw [reflow_nonblank rfl, reflow_nil]
      rfl
    · rw [closeComment_cons hclose, List.length_cons] at h
      have hopen : ¬(c = '*' ∧ (reflow m k cs).head? = some '/') :=
        fun hclose' => hclose ⟨hclose'.1, head?_of_reflow (by decide) hclose'.2⟩
      rw [closeComment_cons hopen, ih (eq_some_of_map_add h)]
      rfl

namespace AttributeState

/-- The state in which no backslash hides the next character. -/
def shown (s : AttributeState) : AttributeState := { s with hidden := false }

/-- States of a scan: quotes are no blanks, and only inside them characters are hidden. -/
structure Sound (s : AttributeState) : Prop where
  quote : ∀ q, s.quote = some q → isBlank q = false
  hidden : s.hidden = true → s.quote ≠ none

theorem Sound.shown {s : AttributeState} (h : s.Sound) : s.shown.Sound :=
  ⟨h.quote, fun hhidden => by cases hhidden⟩

theorem shown_of_not_hidden {s : AttributeState} (h : s.hidden = false) : s.shown = s := by
  rw [AttributeState.shown, ← h]

/-- A blank changes nothing, but it can be hidden. -/
theorem Sound.next_blank {s : AttributeState} (h : s.Sound) {c : Char} (hc : isBlank c = true) :
    s.next c = some s.shown := by
  unfold next
  split
  · rename_i q hq
    split
    · rfl
    · rename_i hhidden
      rw [if_neg (by simpa using ne_of_isBlank hc rfl),
        if_neg (by simpa using ne_of_isBlank hc (h.quote q hq)),
        shown_of_not_hidden (by simpa using hhidden)]
  · rename_i hq
    have hhidden : s.hidden = false := by
      rw [← Bool.not_eq_true]
      exact fun hhidden => h.hidden hhidden hq
    have hother (d : Char) (hd : isBlank d = false) : (c == d) = false := by
      simpa using ne_of_isBlank hc hd
    simp only [hother '\'' rfl, hother '"' rfl, hother '[' rfl, hother ']' rfl, Bool.or_self,
      Bool.false_eq_true, if_false, shown_of_not_hidden hhidden]

theorem Sound.next {s s' : AttributeState} (h : s.Sound) {c : Char} (hs : s.next c = some s') :
    s'.Sound := by
  unfold AttributeState.next at hs
  split at hs
  · rename_i q hq
    split at hs
    · cases hs
      exact h.shown
    · rename_i hhidden
      split at hs
      · cases hs
        exact ⟨h.quote, fun _ hnone => by rw [hq] at hnone; cases hnone⟩
      · split at hs
        · cases hs
          exact ⟨nofun, fun htrue => absurd htrue hhidden⟩
        · cases hs
          exact h
  · rename_i hq
    have hhidden : s.hidden = true → False := fun htrue => h.hidden htrue hq
    split at hs
    · rename_i hc
      cases hs
      refine ⟨fun q hquote => ?_, fun htrue => (hhidden htrue).elim⟩
      cases hquote
      rcases Bool.or_eq_true_iff.1 hc with hc | hc <;> rw [eq_of_beq hc] <;> rfl
    · split at hs
      · cases hs
        exact ⟨h.quote, h.hidden⟩
      · split at hs
        · split at hs
          · cases hs
          · cases hs
            exact ⟨h.quote, h.hidden⟩
        · cases hs
          exact h

/-- Only the closing bracket ends an attribute. -/
theorem eq_of_next_eq_none {s : AttributeState} {c : Char} (h : s.next c = none) : c = ']' := by
  unfold next at h
  split at h
  · repeat' split at h
    all_goals cases h
  · split at h
    · cases h
    · split at h
      · cases h
      · split at h
        · rename_i hc
          exact eq_of_beq hc
        · cases h

end AttributeState

theorem closeAttribute_cons {s s' : AttributeState} {c : Char} (h : s.next c = some s')
    (cs : List Char) : closeAttribute s (c :: cs) = (closeAttribute s' cs).map (· + 1) := by
  rw [closeAttribute, h]

theorem closeAttribute_blanks {s : AttributeState} (hs : s.Sound) {b : List Char}
    (hb : ∀ c ∈ b, isBlank c = true) (cs : List Char) :
    closeAttribute s.shown (b ++ cs) = (closeAttribute s.shown cs).map (· + b.length) := by
  induction b with
  | nil => simp
  | cons c b ih =>
    rw [List.cons_append, closeAttribute_cons (hs.shown.next_blank (hb c (by simp)))]
    have hshown : s.shown.shown = s.shown := rfl
    rw [hshown, ih fun d hd => hb d (by simp [hd]), Option.map_map]
    rfl

/-- A moved attribute is still closed by its last character. Where a backslash hides a blank that
goes, it hides the line feed after it instead. -/
theorem closeAttribute_reflow_and (cs : List Char) : ∀ s : AttributeState, s.Sound →
    (closeAttribute s cs = some cs.length →
      closeAttribute s (reflow m k cs) = some (reflow m k cs).length) ∧
    (atLineEnd cs = true → closeAttribute s.shown cs = some cs.length →
      closeAttribute s (reflow m k cs) = some (reflow m k cs).length) := by
  induction cs using reflowInduction m with
  | nil =>
    intro s _
    exact ⟨nofun, nofun⟩
  | newline cs _ ih =>
    intro s hs
    obtain ⟨b, hb, hindent⟩ := exists_indentation m cs
    have moved (h : closeAttribute s.shown cs = some cs.length) :
        closeAttribute s (reflow m k ('\n' :: cs)) = some (reflow m k ('\n' :: cs)).length := by
      rw [hb, closeAttribute_blanks hs fun d hd => isBlank_of_isIndent (hindent d hd),
        List.length_append, Nat.add_comm] at h
      have hrest := (ih s.shown hs.shown).1 (eq_some_of_map_add h)
      rw [reflow_newline, closeAttribute_cons (hs.next_blank isBlank_newline),
        closeAttribute_blanks hs fun _ => isBlank_of_mem_pad, hrest]
      simp only [Option.map_some, List.length_cons, List.length_append]
      rw [Nat.add_comm (pad k cs).length]
    constructor
    · intro h
      rw [closeAttribute_cons (hs.next_blank isBlank_newline)] at h
      exact moved (eq_some_of_map_add h)
    · intro _ h
      rw [closeAttribute_cons (hs.shown.next_blank isBlank_newline)] at h
      exact moved (eq_some_of_map_add h)
  | dropped c cs hc hblank hend ih =>
    intro s hs
    rw [reflow_dropped hc (by rw [atLineEnd_cons hc, hblank, hend]; rfl)]
    constructor
    · intro h
      rw [closeAttribute_cons (hs.next_blank hblank)] at h
      exact (ih s hs).2 hend (eq_some_of_map_add h)
    · intro _ h
      rw [closeAttribute_cons (hs.shown.next_blank hblank)] at h
      exact (ih s hs).2 hend (eq_some_of_map_add h)
  | kept c cs hc hend ih =>
    intro s hs
    refine ⟨fun h => ?_, fun hend' => by rw [hend] at hend'; cases hend'⟩
    rw [reflow_kept hc hend]
    cases hnext : s.next c with
    | none =>
      have hlength : some 1 = some (c :: cs).length := by rw [← h, closeAttribute, hnext]
      obtain rfl : cs = [] := List.eq_nil_of_length_eq_zero (by simpa using hlength)
      rw [closeAttribute, hnext, reflow_nil]
      rfl
    | some s' =>
      rw [closeAttribute_cons hnext] at h
      rw [closeAttribute_cons hnext, (ih s' (hs.next hnext)).1 (eq_some_of_map_add h)]
      rfl

theorem closeAttribute_reflow {cs : List Char} (h : closeAttribute {} cs = some cs.length) :
    closeAttribute {} (reflow m k cs) = some (reflow m k cs).length :=
  (closeAttribute_reflow_and cs {} ⟨nofun, nofun⟩).1 h

/-! ## What is found when moved -/

/-- What was found is found again when only the first line of what follows it stays. -/
theorem found_front {c : Char} (hc : isSpace c = false) {w v y x : List Char} {r : Found}
    (hfound : found c (w ++ (v ++ y)) = r) (hstuck : r.isStuck = false) (hw : r.more = w.length)
    (hx : x = v ∨ ∃ z, x = v ++ '\n' :: z) : found c (w ++ x) = r := by
  have hfront : found c (w ++ v) = r := found_within hfound hstuck hw
  rcases hx with rfl | ⟨z, rfl⟩
  · exact hfront
  · rw [← List.append_assoc, found_append_newline hc (by rw [hfront]; exact hstuck), hfront]

/-- What was found is found again when what follows it is moved. -/
theorem found_reflow {c : Char} (hc : isSpace c = false) {w rest : List Char} {r : Found}
    (hfound : found c (w ++ rest) = r) (hstuck : r.isStuck = false) (hw : r.more = w.length) :
    found c (w ++ reflow m k rest) = r := by
  obtain ⟨v, y, rfl, hmoved⟩ := exists_reflow_front m k rest
  exact found_front hc hfound hstuck hw hmoved

theorem found_comment {ds : List Char} (h : closeComment ds = some ds.length) (rest : List Char) :
    found '/' ('*' :: (ds ++ rest)) =
      if ds.head? = some '*' ∧ ds.length ≠ 2 then .token .doc ('*' :: ds).length
      else .skipped ('*' :: ds).length := by
  have hwhole : blockComment ds =
      if ds.head? = some '*' ∧ ds.length ≠ 2 then .token .doc ('*' :: ds).length
      else .skipped ('*' :: ds).length := by
    rw [blockComment, h]
    rfl
  have hstuck : (blockComment ds).isStuck = false := by
    rw [hwhole]
    split <;> rfl
  rw [← hwhole, ← blockComment_append hstuck rest]
  rfl

theorem found_attribute {ds : List Char} (h : closeAttribute {} ds = some ds.length)
    (rest : List Char) : found '#' ('[' :: (ds ++ rest)) = .skipped ('[' :: ds).length := by
  have hwhole : attributeGroup ds = .skipped ('[' :: ds).length := by
    rw [attributeGroup, h]
    rfl
  have hstuck : (attributeGroup ds).isStuck = false := by
    rw [hwhole]
    rfl
  rw [← hwhole, ← attributeGroup_append hstuck rest]
  rfl

theorem reflow_nonblanks {u : List Char} (hu : ∀ d ∈ u, isBlank d = false) (rest : List Char) :
    reflow m k (u ++ rest) = u ++ reflow m k rest := by
  induction u with
  | nil => rfl
  | cons c u ih =>
    rw [List.cons_append, reflow_nonblank (hu c (by simp)), ih fun d hd => hu d (by simp [hd])]
    rfl

theorem endsNonblank_of_getLast? {u : List Char} {c : Char} (h : u.getLast? = some c)
    (hc : isBlank c = false) : endsNonblank u = true := by
  rw [endsNonblank, h, Option.any_some, hc]
  rfl

theorem getLast?_of_closeComment {ds : List Char} (h : closeComment ds = some ds.length) :
    ds.getLast? = some '/' := by
  induction ds with
  | nil => cases h
  | cons c ds ih =>
    by_cases hclose : c = '*' ∧ ds.head? = some '/'
    · rw [closeComment_close hclose] at h
      obtain ⟨rest, rfl⟩ := List.head?_eq_some_iff.1 hclose.2
      obtain rfl : rest = [] := List.eq_nil_of_length_eq_zero (by simpa using h)
      rfl
    · rw [closeComment_cons hclose, List.length_cons] at h
      have hlast := ih (eq_some_of_map_add h)
      rw [List.getLast?_cons, hlast]
      rfl

theorem getLast?_of_closeAttribute {s : AttributeState} {ds : List Char}
    (h : closeAttribute s ds = some ds.length) : ds.getLast? = some ']' := by
  induction ds generalizing s with
  | nil => cases h
  | cons c ds ih =>
    cases hnext : s.next c with
    | none =>
      have hlength : some 1 = some (c :: ds).length := by rw [← h, closeAttribute, hnext]
      obtain rfl : ds = [] := List.eq_nil_of_length_eq_zero (by simpa using hlength)
      rw [AttributeState.eq_of_next_eq_none hnext]
      rfl
    | some s' =>
      rw [closeAttribute_cons hnext, List.length_cons] at h
      rw [List.getLast?_cons, ih (eq_some_of_map_add h)]
      rfl

theorem getLast?_of_units {quote : Char} {w : List Char} (h : (units quote w).2 = true)
    (hw : (units quote w).1 + 1 = w.length) : w.getLast? = some quote := by
  induction w using backslashInduction with
  | nil => cases h
  | backslash => cases h
  | hidden c cs ih =>
    rw [units_backslash] at h hw
    split at h
    · cases h
    · rename_i hc
      rw [if_neg hc] at hw
      rw [List.getLast?_cons_cons, List.getLast?_cons, ih h (by simpa using hw)]
      rfl
  | char c cs hc ih =>
    rw [units_cons hc] at h hw
    split at h
    · rename_i hquote
      rw [if_pos hquote] at hw
      obtain rfl : cs = [] := List.eq_nil_of_length_eq_zero (by simpa using hw.symm)
      rw [eq_of_beq hquote]
      rfl
    · rename_i hquote
      rw [if_neg hquote] at hw
      rw [List.getLast?_cons, ih h (by simpa using hw)]
      rfl

/-- The shortest text that ends with the end of a comment. -/
theorem eq_of_closeComment_of_length_le {ds : List Char} (h : closeComment ds = some ds.length)
    (hlength : ds.length ≤ 2) : ds = ['*', '/'] := by
  cases ds with
  | nil => cases h
  | cons c cs =>
    by_cases hclose : c = '*' ∧ cs.head? = some '/'
    · obtain ⟨rfl, hhead⟩ := hclose
      obtain ⟨rest, rfl⟩ := List.head?_eq_some_iff.1 hhead
      obtain rfl : rest = [] := List.eq_nil_of_length_eq_zero (by simpa using hlength)
      rfl
    · rw [closeComment_cons hclose, List.length_cons] at h
      have hcs := eq_some_of_map_add h
      match cs, hlength with
      | [], _ => cases hcs
      | [d], _ =>
        rw [closeComment_cons (by simp)] at hcs
        cases hcs

/-- Whether a comment documents does not change when it is moved. -/
theorem documents_reflow_iff {ds : List Char} (h : closeComment ds = some ds.length) :
    ((reflow m k ds).head? = some '*' ∧ (reflow m k ds).length ≠ 2) ↔
      (ds.head? = some '*' ∧ ds.length ≠ 2) := by
  have hhead : (reflow m k ds).head? = some '*' ↔ ds.head? = some '*' := by
    refine ⟨head?_of_reflow (by decide), fun hhead => ?_⟩
    obtain ⟨rest, rfl⟩ := List.head?_eq_some_iff.1 hhead
    rw [reflow_nonblank rfl]
    rfl
  rw [hhead]
  refine and_congr_right fun hstar => not_congr ?_
  obtain ⟨rest, rfl⟩ := List.head?_eq_some_iff.1 hstar
  constructor
  · intro hlength
    -- a blank may be lost, but the text of two characters that is left has none
    have hmoved := eq_of_closeComment_of_length_le (closeComment_reflow h) (Nat.le_of_eq hlength)
    rw [reflow_nonblank rfl] at hmoved
    have hslash := congrArg List.head? (List.cons.inj hmoved).2
    rw [closeComment_close ⟨rfl, head?_of_reflow (by decide) hslash⟩] at h
    exact (Option.some.inj h).symm
  · intro hlength
    rw [eq_of_closeComment_of_length_le h (Nat.le_of_eq hlength), reflow_nonblank rfl,
      reflow_nonblank rfl, reflow_nil]
    rfl

theorem comment_reflow {ds : List Char} (h : closeComment ds = some ds.length) (rest : List Char) :
    reflow m k ('/' :: ('*' :: ds ++ rest)) = '/' :: ('*' :: reflow m k ds ++ reflow m k rest) ∧
      found '/' ('*' :: reflow m k ds ++ reflow m k rest) =
        if ds.head? = some '*' ∧ ds.length ≠ 2 then .token .doc ('*' :: reflow m k ds).length
        else .skipped ('*' :: reflow m k ds).length := by
  have hends : endsNonblank ds = true :=
    endsNonblank_of_getLast? (getLast?_of_closeComment h) rfl
  constructor
  · rw [reflow_nonblank rfl, List.cons_append, reflow_nonblank rfl, reflow_append hends,
      List.cons_append]
  · rw [List.cons_append, found_comment (closeComment_reflow h)]
    exact if_congr (documents_reflow_iff h) rfl rfl

theorem attribute_reflow {ds : List Char} (h : closeAttribute {} ds = some ds.length)
    (rest : List Char) :
    reflow m k ('#' :: ('[' :: ds ++ rest)) = '#' :: ('[' :: reflow m k ds ++ reflow m k rest) ∧
      found '#' ('[' :: reflow m k ds ++ reflow m k rest) =
        .skipped ('[' :: reflow m k ds).length := by
  have hends : endsNonblank ds = true :=
    endsNonblank_of_getLast? (getLast?_of_closeAttribute h) rfl
  constructor
  · rw [reflow_nonblank rfl, List.cons_append, reflow_nonblank rfl, reflow_append hends,
      List.cons_append]
  · rw [List.cons_append, found_attribute (closeAttribute_reflow h)]

theorem found_of_startsLine {c : Char} {w : List Char} (h : StartsLine c w) :
    found c w = lineComment w := by
  rcases h with ⟨rfl, hhead⟩ | ⟨rfl, hhead⟩
  · exact afterHash_other hhead
  · obtain ⟨rest, rfl⟩ := List.head?_eq_some_iff.1 hhead
    rfl

theorem StartsLine.append {c : Char} {w y : List Char} (h : StartsLine c w)
    (hy : y.head? ≠ some '[') : StartsLine c (w ++ y) := by
  cases w with
  | nil =>
    refine .inl ?_
    rcases h with ⟨hhash, -⟩ | ⟨-, hhead⟩
    · exact ⟨hhash, hy⟩
    · cases hhead
  | cons d ds => exact h

theorem dropTrailingBlanks_cons_nonblank {c : Char} (hc : isBlank c = false) (cs : List Char) :
    dropTrailingBlanks (c :: cs) = c :: dropTrailingBlanks cs := by
  rw [dropTrailingBlanks_cons, if_neg (by simp [hc])]

theorem StartsLine.dropTrailingBlanks {c : Char} {w : List Char} (h : StartsLine c w) :
    StartsLine c (dropTrailingBlanks w) := by
  refine h.imp (fun ⟨hhash, hhead⟩ => ⟨hhash, fun hbracket => hhead ?_⟩) fun ⟨hslash, hhead⟩ =>
    ⟨hslash, ?_⟩
  · obtain ⟨rest, hrest⟩ := List.head?_eq_some_iff.1 hbracket
    obtain ⟨z, hz⟩ := dropTrailingBlanks_isPrefix w
    rw [← hz, hrest]
    rfl
  · obtain ⟨rest, rfl⟩ := List.head?_eq_some_iff.1 hhead
    rw [dropTrailingBlanks_cons_nonblank rfl]
    rfl

theorem lineComment_append {w y : List Char} (hw : '\n' ∉ w) (hy : y = [] ∨ ∃ z, y = '\n' :: z) :
    lineComment (w ++ y) = .skipped w.length := by
  have hself : w.takeWhile (· != '\n') = w := by
    rw [List.takeWhile_eq_self_iff]
    intro d hd
    simp only [bne_iff_ne, ne_eq]
    rintro rfl
    exact hw hd
  rcases hy with rfl | ⟨z, rfl⟩
  · rw [List.append_nil, lineComment, count, hself]
  · rw [lineComment_append_newline, lineComment, count, hself]

/-- A line comment loses the blanks at its end. -/
theorem line_reflow {c : Char} {w rest : List Char}
    (hstart : StartsLine c w) (hno : '\n' ∉ w) (hline : ∀ d ∈ rest.head?, d = '\n') :
    ∃ w', reflow m k (c :: (w ++ rest)) = c :: (w' ++ reflow m k rest) ∧
      found c (w' ++ reflow m k rest) = .skipped w'.length := by
  have hc : isBlank c = false := by
    rcases hstart with ⟨rfl, -⟩ | ⟨rfl, -⟩ <;> rfl
  have hno' : '\n' ∉ dropTrailingBlanks w := fun hmem =>
    hno ((dropTrailingBlanks_isPrefix w).subset hmem)
  have hnone : '\n' ∉ c :: w := by
    rw [List.mem_cons, not_or]
    exact ⟨Ne.symm (ne_newline_of_nonblank hc), hno⟩
  have hcut : rest = [] ∨ ∃ z, rest = '\n' :: z := by
    cases rest with
    | nil => exact .inl rfl
    | cons d z => exact .inr ⟨z, by rw [hline d rfl]⟩
  have hmoved : reflow m k (c :: (w ++ rest)) = c :: (dropTrailingBlanks w ++ reflow m k rest) := by
    rw [← List.cons_append, ← List.cons_append, ← dropTrailingBlanks_cons_nonblank hc]
    rcases hcut with rfl | ⟨z, rfl⟩
    · rw [List.append_nil, reflow_nil, List.append_nil, reflow_line hnone]
    · exact reflow_line_newline hnone z
  have hrest : reflow m k rest = [] ∨ ∃ z, reflow m k rest = '\n' :: z := by
    rcases hcut with rfl | ⟨z, rfl⟩
    · exact .inl reflow_nil
    · exact .inr ⟨_, reflow_newline z⟩
  refine ⟨dropTrailingBlanks w, hmoved, ?_⟩
  have hhead : (reflow m k rest).head? ≠ some '[' := by
    rcases hrest with hnil | ⟨z, hz⟩
    · rw [hnil]
      nofun
    · rw [hz]
      simp
  rw [found_of_startsLine (hstart.dropTrailingBlanks.append hhead), lineComment_append hno' hrest]

/-- What is passed over is passed over when moved. -/
theorem skip_reflow {c : Char} (hc : isSpace c = false) {w rest : List Char}
    (hfound : found c (w ++ rest) = .skipped w.length) (m k : Nat) :
    ∃ w', reflow m k (c :: (w ++ rest)) = c :: (w' ++ reflow m k rest) ∧
      found c (w' ++ reflow m k rest) = .skipped w'.length := by
  cases skippedAt_of_found hc hfound with
  | tag htag =>
    exact ⟨w, reflow_nonblanks (m := m) (k := k) (nonblank_of_tag htag) rest,
      found_reflow hc hfound rfl rfl⟩
  | line hstart hno hline => exact line_reflow hstart hno hline
  | comment hslash hds hclose hplain =>
    subst hslash hds
    obtain ⟨hmoved, hat⟩ := comment_reflow (m := m) (k := k) hclose rest
    exact ⟨_, hmoved, by rw [hat, if_neg hplain]⟩
  | group hhash hds hclose =>
    subst hhash hds
    obtain ⟨hmoved, hat⟩ := attribute_reflow (m := m) (k := k) hclose rest
    exact ⟨_, hmoved, hat⟩

/-- A documentation comment stays one when moved. -/
theorem doc_reflow {c : Char} {w rest : List Char}
    (hfound : found c (w ++ rest) = .token .doc w.length) (m k : Nat) :
    ∃ w', reflow m k (c :: (w ++ rest)) = c :: (w' ++ reflow m k rest) ∧
      found c (w' ++ reflow m k rest) = .token .doc w'.length := by
  obtain ⟨ds, rfl, rfl, hclose, hdoc⟩ := exists_of_found_doc hfound
  obtain ⟨hmoved, hat⟩ := comment_reflow (m := m) (k := k) hclose rest
  exact ⟨_, hmoved, by rw [hat, if_pos hdoc]⟩

/-- Other tokens than strings and documentation comments are not changed when moved. -/
theorem plain_reflow {c : Char} {w rest : List Char} {kind : Token.Kind}
    (hfound : found c (w ++ rest) = .token kind w.length) (hstring : kind ≠ .string)
    (hdoc : kind ≠ .doc) (m k : Nat) :
    reflow m k (c :: (w ++ rest)) = c :: (w ++ reflow m k rest) ∧
      found c (w ++ reflow m k rest) = .token kind w.length := by
  exact ⟨reflow_nonblanks (nonblank_of_found hfound hstring hdoc) rest,
    found_reflow (isSpace_of_found hfound) hfound rfl rfl⟩

/-- A string is moved by itself. -/
theorem string_reflow {c : Char} {w rest : List Char}
    (hfound : found c (w ++ rest) = .token .string w.length) (m k : Nat) :
    (c = '\'' ∨ c = '"') ∧ endsNonblank (c :: w) = true ∧
      reflow m k (c :: (w ++ rest)) = reflow m k (c :: w) ++ reflow m k rest ∧
      found c (w ++ reflow m k rest) = .token .string w.length := by
  obtain ⟨hquote, hclosed, hlength⟩ := units_of_found_string hfound
  have hlast := getLast?_of_units hclosed hlength
  have hends : endsNonblank (c :: w) = true := by
    refine endsNonblank_of_getLast? (c := c) (by rw [List.getLast?_cons, hlast]; rfl) ?_
    rcases hquote with rfl | rfl <;> rfl
  exact ⟨hquote, hends, reflow_append hends rest,
    found_reflow (isSpace_of_found hfound) hfound rfl rfl⟩

/-! ## Whole texts when moved -/

theorem isSpace_of_isIndent {c : Char} (h : isIndent c = true) : isSpace c = true := by
  rcases Bool.or_eq_true_iff.1 h with h | h <;> rw [eq_of_beq h] <;> rfl

theorem scans_spaces_iff {b : List Char} (hb : ∀ c ∈ b, isSpace c = true) {cs : List Char}
    {ts : List Token} : Scans (b ++ cs) ts ↔ Scans cs ts := by
  induction b with
  | nil => rfl
  | cons c b ih =>
    rw [List.cons_append, scans_space_iff (hb c (by simp)), ih fun d hd => hb d (by simp [hd])]

theorem isSpace_of_mem_pad {c : Char} {line : List Char} (h : c ∈ pad k line) :
    isSpace c = true := by
  rw [pad] at h
  split at h
  · cases h
  · rw [(List.mem_replicate.1 h).2]
    rfl

theorem scans_reflow_indent_iff {b : List Char} (hb : ∀ c ∈ b, isIndent c = true) {cs : List Char}
    {ts : List Token} : Scans (reflow m k (b ++ cs)) ts ↔ Scans (reflow m k cs) ts := by
  induction b with
  | nil => rfl
  | cons c b ih =>
    have hc := hb c (by simp)
    have hrest := ih fun d hd => hb d (by simp [hd])
    rw [List.cons_append, ← hrest]
    cases hend : atLineEnd (c :: (b ++ cs)) with
    | true => rw [reflow_dropped (ne_newline_of_isIndent hc) hend]
    | false =>
      rw [reflow_kept (ne_newline_of_isIndent hc) hend, scans_space_iff (isSpace_of_isIndent hc)]

/-- A blank at the front of a text does not matter, moved or not. -/
theorem scans_reflow_space_iff {c : Char} (hc : isSpace c = true) {cs : List Char}
    {ts : List Token} : Scans (reflow m k (c :: cs)) ts ↔ Scans (reflow m k cs) ts := by
  by_cases hline : c = '\n'
  · obtain ⟨b, hb, hindent⟩ := exists_indentation m cs
    rw [hline, reflow_newline, scans_space_iff rfl, scans_spaces_iff fun _ => isSpace_of_mem_pad]
    conv_rhs => rw [hb, scans_reflow_indent_iff hindent]
  · cases hend : atLineEnd (c :: cs) with
    | true => rw [reflow_dropped hline hend]
    | false => rw [reflow_kept hline hend, scans_space_iff hc]

end CurryGen.Scan

namespace CurryGen

open Scan Statement Text

namespace Scan

/-- A moved text has the tokens of the text, up to the texts of documentation comments, if its
strings stay as they are. -/
theorem exists_scans_reflow {m k : Nat} {text : List Char} {ts : List Token} (h : Scans text ts)
    (hkept : ∀ t ∈ ts, t.kind = .string → reflow m k t.text.toList = t.text.toList) :
    ∃ us, Scans (reflow m k text) us ∧ us.map Token.erased = ts.map Token.erased := by
  induction h with
  | nil => exact ⟨[], by rw [reflow_nil]; exact .nil, rfl⟩
  | space hc _ ih =>
    obtain ⟨us, hus, herased⟩ := ih hkept
    exact ⟨us, (scans_reflow_space_iff hc).2 hus, herased⟩
  | skip hc hfound _ ih =>
    obtain ⟨us, hus, herased⟩ := ih hkept
    obtain ⟨w', hmoved, hfound'⟩ := skip_reflow hc hfound m k
    exact ⟨us, by rw [hmoved]; exact .skip hc hfound' hus, herased⟩
  | @token c w rest kind ts hfound _ ih =>
    obtain ⟨us, hus, herased⟩ := ih fun t ht => hkept t (by simp [ht])
    by_cases hdoc : kind = .doc
    · subst hdoc
      obtain ⟨w', hmoved, hfound'⟩ := doc_reflow hfound m k
      refine ⟨_, by rw [hmoved]; exact .token hfound' hus, ?_⟩
      rw [List.map_cons, List.map_cons, herased, Token.erased_doc, Token.erased_doc]
    · have hsame : reflow m k (c :: (w ++ rest)) = c :: (w ++ reflow m k rest) ∧
          found c (w ++ reflow m k rest) = .token kind w.length := by
        by_cases hstring : kind = .string
        · subst hstring
          obtain ⟨-, -, hmoved, hfound'⟩ := string_reflow hfound m k
          have hself := hkept _ List.mem_cons_self rfl
          rw [String.toList_ofList] at hself
          exact ⟨by rw [hmoved, hself]; rfl, hfound'⟩
        · exact plain_reflow hfound hstring hdoc m k
      refine ⟨_, by rw [hsame.1]; exact .token hsame.2 hus, ?_⟩
      rw [List.map_cons, List.map_cons, herased]

/-- A text that begins with a quote begins with a string, if it has tokens at all. -/
theorem Scans.of_quote {c : Char} (hc : c = '\'' ∨ c = '"') {cs : List Char} {ts : List Token}
    (h : Scans (c :: cs) ts) :
    ∃ w rest us, cs = w ++ rest ∧ ts = ⟨.string, String.ofList (c :: w)⟩ :: us := by
  have hstuck := h.isStuck_eq_false
  obtain ⟨w, rest, rfl, hlength⟩ := exists_eq_append hstuck
  have hquoted : found c (w ++ rest) = quoted c (w ++ rest) := by
    rcases hc with rfl | rfl <;> rfl
  have hfound : found c (w ++ rest) = .token .string w.length := by
    rw [hquoted, quoted_eq] at hstuck hlength
    rw [hquoted, quoted_eq]
    split at hstuck
    · rename_i hclosed
      rw [if_pos hclosed] at hlength ⊢
      rw [hlength]
      rfl
    · cases hstuck
  obtain ⟨us, rfl, -⟩ := h.of_found hfound
  exact ⟨w, rest, us, rfl, rfl⟩

/-- If a moved text has the tokens of the text, documentation comments left out, then its strings
have stayed as they are. -/
theorem reflow_eq_self_of_scans {m : Nat} {text : List Char} {ts us : List Token}
    (h : Scans text ts) (hus : Scans (reflow m 0 text) us)
    (hcode : us.filter (!·.isDoc) = ts.filter (!·.isDoc)) :
    ∀ t ∈ ts, t.kind = .string → reflow m 0 t.text.toList = t.text.toList := by
  induction h generalizing us with
  | nil => simp
  | space hc _ ih => exact ih ((scans_reflow_space_iff hc).1 hus) hcode
  | skip hc hfound _ ih =>
    obtain ⟨w', hmoved, hfound'⟩ := skip_reflow hc hfound m 0
    rw [hmoved] at hus
    exact ih (Scans.of_skipped hc hfound' hus) hcode
  | @token c w rest kind ts hfound _ ih =>
    by_cases hdoc : kind = .doc
    · subst hdoc
      obtain ⟨w', hmoved, hfound'⟩ := doc_reflow hfound m 0
      rw [hmoved] at hus
      obtain ⟨us', rfl, hrest⟩ := hus.of_found hfound'
      exact List.forall_mem_cons.2 ⟨nofun, ih hrest hcode⟩
    · have hkeep : Token.isDoc ⟨kind, String.ofList (c :: w)⟩ = false := by
        simp [Token.isDoc, hdoc]
      rw [Token.filter_code_cons hkeep] at hcode
      by_cases hstring : kind = .string
      · subst hstring
        obtain ⟨hquote, hends, hmoved, hfound'⟩ := string_reflow hfound m 0
        have hc : isBlank c = false := by
          rcases hquote with rfl | rfl <;> rfl
        -- the string that is read begins with the moved one, and is the original one
        have hself : reflow m 0 (c :: w) = c :: w := by
          rw [hmoved, reflow_nonblank hc] at hus
          obtain ⟨w', rest', us', hsplit, rfl⟩ := Scans.of_quote hquote hus
          rw [Token.filter_code_cons rfl] at hcode
          have htext := congrArg Token.text (List.cons.inj hcode).1
          have hw : c :: w' = c :: w := String.ofList_injective htext
          obtain rfl : w' = w := (List.cons.inj hw).2
          refine reflow_eq_self_of_isPrefix (v := reflow m 0 rest) hends ⟨rest', ?_⟩
          rw [reflow_nonblank hc, List.cons_append, List.cons_append]
          exact congrArg (c :: ·) hsplit.symm
        rw [hmoved, hself] at hus
        obtain ⟨us', rfl, hrest⟩ := Scans.of_found hfound' hus
        rw [Token.filter_code_cons hkeep] at hcode
        refine List.forall_mem_cons.2 ⟨fun _ => ?_, ih hrest (List.cons.inj hcode).2⟩
        rw [String.toList_ofList]
        exact hself
      · obtain ⟨hmoved, hfound'⟩ := plain_reflow hfound hstring hdoc m 0
        rw [hmoved] at hus
        obtain ⟨us', rfl, hrest⟩ := hus.of_found hfound'
        rw [Token.filter_code_cons hkeep] at hcode
        exact List.forall_mem_cons.2 ⟨fun h => absurd h hstring, ih hrest (List.cons.inj hcode).2⟩

end Scan

end CurryGen

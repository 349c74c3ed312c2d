import CurryGen.Proofs.Token.Reading
import CurryGen.Text.Blank

/-!
# What is found as a whole

The characters of what is found at the head of a text, where all of them are given. Blanks are only
in strings, comments and attributes.

* `nonblank_of_found`, `units_of_found_string`, `exists_of_found_doc`: the characters of a token.
* `skippedAt_of_found`: those of what is passed over.
-/

namespace CurryGen.Scan

open Text

/-! ## Blanks in tokens -/

theorem isNameChar_eq_false_of_isBlank {c : Char} (h : isBlank c = true) : isNameChar c = false := by
  rw [← Bool.not_eq_true]
  intro hname
  rw [isNameChar_iff] at hname
  simp only [isBlank, Bool.or_eq_true, Bool.and_eq_true, decide_eq_true_eq, beq_iff_eq] at h
  rcases hname with hname | hname | hname | rfl
  · omega
  · omega
  · omega
  · exact absurd h (by decide)

theorem isBlank_eq_false_of_isNameChar {c : Char} (h : isNameChar c = true) : isBlank c = false := by
  rw [← Bool.not_eq_true]
  intro hblank
  rw [isNameChar_eq_false_of_isBlank hblank] at h
  cases h

theorem variable_whole {w : List Char} (h : count isNameChar w = w.length) :
    ∀ d ∈ w, isBlank d = false :=
  fun d hd => isBlank_eq_false_of_isNameChar (count_eq_length_iff.1 h d hd)

theorem ne_of_isBlank {c d : Char} (h : isBlank c = true) (hd : isBlank d = false) : c ≠ d := by
  rintro rfl
  rw [h] at hd
  cases hd

/-- What reads a whole text, and stops at a character, does not meet it. -/
theorem notMem_of_whole {f : List Char → Nat} {w : List Char} {d : Char}
    (hstop : ∀ u y, f (u ++ d :: y) = f u) (hle : ∀ u, f u ≤ u.length) (h : f w = w.length) :
    d ∉ w := by
  intro hd
  obtain ⟨u, y, rfl⟩ := List.append_of_mem hd
  have := hle u
  rw [hstop, List.length_append, List.length_cons] at h
  omega

/-- What reads a whole text, and stops at blanks, has none in it. -/
theorem isBlank_eq_false_of_whole {f : List Char → Nat} {w : List Char}
    (hstop : ∀ d, isBlank d = true → ∀ u y, f (u ++ d :: y) = f u) (hle : ∀ u, f u ≤ u.length)
    (h : f w = w.length) : ∀ d ∈ w, isBlank d = false := by
  intro d hd
  rw [← Bool.not_eq_true]
  exact fun hblank => notMem_of_whole (hstop d hblank) hle h hd

theorem nameTail_whole {w : List Char} (h : nameTail w = w.length) :
    ∀ d ∈ w, isBlank d = false :=
  isBlank_eq_false_of_whole (fun _ hd u y =>
    nameTail_append_stop (isNameChar_eq_false_of_isBlank hd) (ne_of_isBlank hd rfl) u y)
    nameTail_le_length h

theorem number_whole {first : Char} {w : List Char} (h : (number first w).more = w.length) :
    ∀ d ∈ w, isBlank d = false := by
  refine isBlank_eq_false_of_whole (f := fun u => (number first u).more) (fun d hd u y => ?_)
    (number_le_length first) h
  have hsign : isSign d = false := by
    simp [isSign, ne_of_isBlank hd (d := '+') rfl, ne_of_isBlank hd (d := '-') rfl]
  rw [number_append_stop (isNameChar_eq_false_of_isBlank hd) (ne_of_isBlank hd rfl) y (.inl hsign)]

theorem symbols_nonblank {s : String} (hs : s ∈ symbols) : ∀ c ∈ s.toList, isBlank c = false := by
  have hall : (symbols.all fun s => s.toList.all (!isBlank ·)) = true := by decide
  intro c hc
  simpa using List.all_eq_true.1 (List.all_eq_true.1 hall s hs) c hc

theorem symbol_whole {c : Char} {w : List Char} {kind : Token.Kind}
    (h : symbolAt c w = .token kind w.length) : ∀ d ∈ c :: w, isBlank d = false := by
  obtain ⟨-, s, hs, hfront, hlength, -⟩ := symbolAt_eq_token_iff.1 h
  rw [← hfront.eq_of_length hlength]
  exact symbols_nonblank hs

/-! ## Tokens -/

/-- Only strings and documentation comments have blanks. -/
theorem nonblank_of_found {c : Char} {w rest : List Char} {kind : Token.Kind}
    (h : found c (w ++ rest) = .token kind w.length) (hstring : kind ≠ .string) (hdoc : kind ≠ .doc) :
    ∀ d ∈ c :: w, isBlank d = false := by
  have start {d : Char} (hd : isNameStart d = true) : isBlank d = false :=
    isBlank_eq_false_of_isNameChar (isNameChar_of_isNameStart hd)
  cases tokenAt_of_found (found_alone h rfl rfl) with
  | name hc hw => exact List.forall_mem_cons.2 ⟨start hc, nameTail_whole hw⟩
  | rootedName hc hcs hd hw =>
    subst hc hcs
    exact List.forall_mem_cons.2
      ⟨rfl, List.forall_mem_cons.2 ⟨start hd, nameTail_whole (Nat.succ.inj hw)⟩⟩
  | variableName hc hcs hd hw =>
    subst hc hcs
    exact List.forall_mem_cons.2
      ⟨rfl, List.forall_mem_cons.2 ⟨start hd, variable_whole (Nat.succ.inj hw)⟩⟩
  | number hc hw _ =>
    exact List.forall_mem_cons.2 ⟨isBlank_eq_false_of_isNameChar (isNameChar_of_isDigit hc),
      number_whole (by rw [hw]; rfl)⟩
  | string => exact absurd rfl hstring
  | doc => exact absurd rfl hdoc
  | symbol hw => exact symbol_whole hw

/-- A string is units between quotes. -/
theorem units_of_found_string {c : Char} {w rest : List Char}
    (h : found c (w ++ rest) = .token .string w.length) :
    (c = '\'' ∨ c = '"') ∧ (units c w).2 = true ∧ (units c w).1 + 1 = w.length := by
  cases tokenAt_of_found (found_alone h rfl rfl) with
  | number _ _ hkind => rcases hkind with hkind | hkind <;> cases hkind
  | string hc hclosed hw => exact ⟨hc, hclosed, hw⟩

/-- A documentation comment begins with two stars and is not empty. -/
theorem exists_of_found_doc {c : Char} {w rest : List Char}
    (h : found c (w ++ rest) = .token .doc w.length) :
    ∃ ds, c = '/' ∧ w = '*' :: ds ∧ closeComment ds = some ds.length ∧ ds.head? = some '*' ∧
      ds.length ≠ 2 := by
  cases tokenAt_of_found (found_alone h rfl rfl) with
  | number _ _ hkind => rcases hkind with hkind | hkind <;> cases hkind
  | @doc ds n hc hw hclose hstar hne hlength =>
    obtain rfl := hw
    obtain rfl : n = ds.length := Nat.succ.inj hlength
    exact ⟨ds, hc, rfl, hclose, hstar, hne⟩

/-! ## What is passed over -/

/-- What starts a line comment: a hash before anything but a bracket, or two slashes. -/
def StartsLine (c : Char) (w : List Char) : Prop :=
  c = '#' ∧ w.head? ≠ some '[' ∨ c = '/' ∧ w.head? = some '/'

/-- How a text `c :: w` that is not blank is passed over before `rest`. -/
inductive SkippedAt (c : Char) (w rest : List Char) : Prop
  | tag : c :: w = "<?php".toList ∨ c :: w = "?>".toList → SkippedAt c w rest
  | line : StartsLine c w → '\n' ∉ w → (∀ d ∈ rest.head?, d = '\n') → SkippedAt c w rest
  | comment {ds : List Char} : c = '/' → w = '*' :: ds → closeComment ds = some ds.length →
      ¬(ds.head? = some '*' ∧ ds.length ≠ 2) → SkippedAt c w rest
  | group {ds : List Char} : c = '#' → w = '[' :: ds → closeAttribute {} ds = some ds.length →
      SkippedAt c w rest

/-- A count that takes just `w` ends where the predicate does. -/
theorem count_append_eq_length {p : Char → Bool} {w rest : List Char}
    (h : count p (w ++ rest) = w.length) :
    (∀ c ∈ w, p c = true) ∧ ∀ c ∈ rest.head?, p c = false := by
  constructor
  · rw [← count_eq_length_iff, count_of_append (Nat.le_of_eq h), h]
  · intro c hc
    have hhead := List.head?_dropWhile_not p (w ++ rest)
    rw [← drop_count, h, List.drop_left, Option.mem_def.1 hc] at hhead
    exact hhead

theorem skippedAt_of_lineComment {c : Char} {w rest : List Char} (hstart : StartsLine c w)
    (h : lineComment (w ++ rest) = .skipped w.length) : SkippedAt c w rest := by
  obtain ⟨hw, hrest⟩ := count_append_eq_length (Found.skipped.inj h)
  exact .line hstart (fun hmem => by simpa using hw _ hmem) fun d hd => by simpa using hrest d hd

theorem skippedAt_of_afterHash {w rest : List Char} (h : afterHash (w ++ rest) = .skipped w.length) :
    SkippedAt '#' w rest := by
  by_cases hbracket : (w ++ rest).head? = some '['
  · cases w with
    | nil =>
      obtain ⟨ds, rfl⟩ := List.head?_eq_some_iff.1 hbracket
      obtain ⟨n, -, hn⟩ := attributeGroup_eq_skipped h
      cases hn
    | cons d ds =>
      obtain rfl : d = '[' := Option.some.inj hbracket
      have halone : found '#' ('[' :: ds) = .skipped ('[' :: ds).length := found_alone h rfl rfl
      obtain ⟨n, hn, hlength⟩ := attributeGroup_eq_skipped halone
      rw [← Nat.succ.inj hlength] at hn
      exact .group rfl rfl hn
  · rw [afterHash_other hbracket] at h
    refine skippedAt_of_lineComment (.inl ⟨rfl, fun hhead => hbracket ?_⟩) h
    obtain ⟨ds, rfl⟩ := List.head?_eq_some_iff.1 hhead
    rfl

theorem symbolAt_ne_skipped {c : Char} {cs : List Char} {k : Nat} : symbolAt c cs ≠ .skipped k := by
  unfold symbolAt
  split <;> simp

theorem skippedAt_of_afterSlash {w rest : List Char}
    (h : afterSlash (w ++ rest) = .skipped w.length) : SkippedAt '/' w rest := by
  have halone : afterSlash w = .skipped w.length := found_alone (c := '/') h rfl rfl
  by_cases hstar : w.head? = some '*'
  · obtain ⟨ds, rfl⟩ := List.head?_eq_some_iff.1 hstar
    obtain ⟨n, hn, hplain, hlength⟩ := blockComment_eq_skipped halone
    rw [← Nat.succ.inj hlength] at hn hplain
    exact .comment rfl rfl hn hplain
  · by_cases hslash : w.head? = some '/'
    · obtain ⟨ds, rfl⟩ := List.head?_eq_some_iff.1 hslash
      exact skippedAt_of_lineComment (.inr ⟨rfl, rfl⟩) h
    · rw [afterSlash_other hstar hslash] at halone
      exact absurd halone symbolAt_ne_skipped

theorem eq_of_tagOrSymbol {c : Char} {tag w rest : List Char}
    (h : tagOrSymbol c tag (w ++ rest) = .skipped w.length) : w = tag := by
  rw [tagOrSymbol] at h
  split at h
  · rename_i htag
    have hlength : tag.length = w.length := Found.skipped.inj h
    have hfront : tag <+: w ++ rest := List.isPrefixOf_iff_prefix.1 htag
    have hwithin : tag <+: w :=
      List.prefix_of_prefix_length_le hfront (List.prefix_append w rest) hlength.le
    exact (hwithin.eq_of_length hlength).symm
  · exact absurd h symbolAt_ne_skipped

/-- Whatever is passed over, and is not blank, is one of these. -/
theorem skippedAt_of_found {c : Char} {w rest : List Char} (hc : isSpace c = false)
    (h : found c (w ++ rest) = .skipped w.length) : SkippedAt c w rest := by
  refine found_cases (P := fun r => r (w ++ rest) = .skipped w.length → SkippedAt c w rest)
    ?space ?name ?digit ?quote ?root ?sigil ?hash ?slash ?openTag ?closeTag ?symbol h
  case space => exact fun hspace => absurd hspace (by simp [hc])
  case name => exact fun _ h => nomatch h
  case digit =>
    intro _ h
    obtain ⟨_, _, heq, -⟩ := exists_number c (w ++ rest)
    cases heq.symm.trans h
  case quote =>
    exact fun _ h => nomatch (quoted_of_isStuck (Found.isStuck_of_skipped h)).2.symm.trans h
  case root =>
    intro _ h
    obtain ⟨_, _, -, -, heq⟩ := rootedName_of_isStuck (Found.isStuck_of_skipped h)
    cases heq.symm.trans h
  case sigil =>
    intro _ h
    obtain ⟨_, _, -, -, heq⟩ := variableName_of_isStuck (Found.isStuck_of_skipped h)
    cases heq.symm.trans h
  case hash =>
    rintro rfl
    exact skippedAt_of_afterHash
  case slash =>
    rintro rfl
    exact skippedAt_of_afterSlash
  case openTag =>
    rintro rfl h
    rw [eq_of_tagOrSymbol h]
    exact .tag (.inl rfl)
  case closeTag =>
    rintro rfl h
    rw [eq_of_tagOrSymbol h]
    exact .tag (.inr rfl)
  case symbol => exact fun h => absurd h symbolAt_ne_skipped

theorem nonblank_of_tag {text : List Char} (h : text = "<?php".toList ∨ text = "?>".toList) :
    ∀ d ∈ text, isBlank d = false := by
  have hall : text.all (!isBlank ·) = true := by
    rcases h with rfl | rfl <;> decide
  exact fun d hd => by simpa using List.all_eq_true.1 hall d hd

end CurryGen.Scan

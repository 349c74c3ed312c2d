import CurryGen.Proofs.Token.Recogniser

/-!
# How far a token reaches

What `Scan.found` finds at the head of a text is decided by the characters it takes and a few after
them.

* `tokenAt_of_found`: the ways in which a token is found.
* `found_of_append`: what is found within `u` at the head of `u ++ y` is found in `u` alone.
* `found_append_newline`: a line feed ends whatever was found.
* `found_append_symbol_iff`: a symbol is also found before a text with which it forms no longer
  symbol, comment or tag, and only there.
* `found_append_stop`, `found_append_separator`: a token is also found before a character that
  cannot continue it.
-/

namespace CurryGen.Scan

/-! ## Symbols -/

theorem symbols_sorted : symbols.Pairwise fun a b => b.toList.length ≤ a.toList.length := by
  decide

theorem symbols_ne_nil : ∀ s ∈ symbols, s.toList ≠ [] := by decide

/-- Of the symbols at the head of a text, `symbolAt` takes the longest. -/
theorem find?_symbols_iff {v : List Char} {s : String} :
    symbols.find? (·.toList.isPrefixOf v) = some s ↔
      s ∈ symbols ∧ s.toList <+: v ∧
        ∀ s' ∈ symbols, s'.toList <+: v → s'.toList.length ≤ s.toList.length := by
  have longest {s : String} (h : symbols.find? (·.toList.isPrefixOf v) = some s) :
      s ∈ symbols ∧ s.toList <+: v ∧
        ∀ s' ∈ symbols, s'.toList <+: v → s'.toList.length ≤ s.toList.length := by
    obtain ⟨hs, before, after, hsplit, hbefore⟩ := List.find?_eq_some_iff_append.1 h
    refine ⟨List.mem_of_find?_eq_some h, List.isPrefixOf_iff_prefix.1 hs, fun s' hs' hfront => ?_⟩
    have hsorted := symbols_sorted
    rw [hsplit] at hs' hsorted
    rcases List.mem_append.1 hs' with hs' | hs'
    · have := hbefore s' hs'
      rw [List.isPrefixOf_iff_prefix.2 hfront] at this
      cases this
    · rcases List.mem_cons.1 hs' with rfl | hs'
      · exact Nat.le_refl _
      · exact List.rel_of_pairwise_cons (List.pairwise_append.1 hsorted).2.1 hs'
  refine ⟨longest, fun ⟨hs, hfront, hlongest⟩ => ?_⟩
  have hsome : (symbols.find? (·.toList.isPrefixOf v)).isSome :=
    List.find?_isSome.2 ⟨s, hs, List.isPrefixOf_iff_prefix.2 hfront⟩
  obtain ⟨s', hs'⟩ := Option.isSome_iff_exists.1 hsome
  obtain ⟨hmem, hfront', hlongest'⟩ := longest hs'
  have hlength := Nat.le_antisymm (hlongest s' hmem hfront') (hlongest' s hs hfront)
  have hlist := List.prefix_of_prefix_length_le hfront' hfront (Nat.le_of_eq hlength)
  rw [hs', String.toList_inj.1 (hlist.eq_of_length hlength)]

theorem symbolAt_of_find? {c : Char} {cs : List Char} {s : String}
    (h : symbols.find? (·.toList.isPrefixOf (c :: cs)) = some s) :
    symbolAt c cs = .token .symbol (s.toList.length - 1) := by
  rw [symbolAt, h, String.length_toList]

theorem symbolAt_eq_token_iff {c : Char} {cs : List Char} {kind : Token.Kind} {k : Nat} :
    symbolAt c cs = .token kind k ↔
      kind = .symbol ∧ ∃ s ∈ symbols, s.toList <+: c :: cs ∧ s.toList.length = k + 1 ∧
        ∀ s' ∈ symbols, s'.toList <+: c :: cs → s'.toList.length ≤ k + 1 := by
  constructor
  · intro h
    cases hs : symbols.find? (·.toList.isPrefixOf (c :: cs)) with
    | none =>
      rw [symbolAt, hs] at h
      cases h
    | some s =>
      rw [symbolAt_of_find? hs] at h
      cases h
      obtain ⟨hmem, hfront, hlongest⟩ := find?_symbols_iff.1 hs
      have hpos : 0 < s.toList.length := List.length_pos_iff.2 (symbols_ne_nil s hmem)
      rw [Nat.sub_add_cancel hpos]
      exact ⟨rfl, s, hmem, hfront, rfl, hlongest⟩
  · intro hright
    obtain ⟨rfl, s, hmem, hfront, hlength, hlongest⟩ := hright
    rw [← hlength] at hlongest
    rw [symbolAt_of_find? (find?_symbols_iff.2 ⟨hmem, hfront, hlongest⟩), hlength]
    rfl

theorem symbolAt_eq_token {c : Char} {cs : List Char} (h : (symbolAt c cs).isStuck = false) :
    ∃ k, symbolAt c cs = .token .symbol k := by
  rw [symbolAt] at h ⊢
  split
  · exact ⟨_, rfl⟩
  · rename_i hnone
    rw [hnone] at h
    cases h

theorem symbolAt_of_append {c : Char} {u y : List Char}
    (h : (symbolAt c (u ++ y)).isStuck = false) (hle : (symbolAt c (u ++ y)).more ≤ u.length) :
    symbolAt c u = symbolAt c (u ++ y) := by
  obtain ⟨k, hk⟩ := symbolAt_eq_token h
  rw [hk] at hle ⊢
  obtain ⟨-, s, hmem, hfront, hlength, hlongest⟩ := symbolAt_eq_token_iff.1 hk
  have hle : k ≤ u.length := hle
  refine symbolAt_eq_token_iff.2 ⟨rfl, s, hmem, ?_, hlength, fun s' hs' hfront' => ?_⟩
  · refine List.prefix_of_prefix_length_le hfront (List.prefix_append (c :: u) y) ?_
    rw [hlength, List.length_cons]
    omega
  · exact hlongest s' hs' (hfront'.trans (List.prefix_append (c :: u) y))

/-- A symbol stays the same before a text with which no longer symbol can be formed. -/
theorem symbolAt_append {c : Char} {u y : List Char}
    (h : symbolAt c u = .token .symbol u.length)
    (hy : ∀ s ∈ symbols, s.toList <+: c :: u ++ y → s.toList.length ≤ u.length + 1) :
    symbolAt c (u ++ y) = .token .symbol u.length := by
  obtain ⟨-, s, hmem, hfront, hlength, -⟩ := symbolAt_eq_token_iff.1 h
  exact symbolAt_eq_token_iff.2
    ⟨rfl, s, hmem, hfront.trans (List.prefix_append (c :: u) y), hlength, hy⟩

/-- What has no `d` in it is no longer because `d` follows. -/
theorem prefix_append_cons_iff {s v y : List Char} {d : Char} (hd : d ∉ s) :
    s <+: v ++ d :: y ↔ s <+: v := by
  constructor
  · intro h
    rcases Nat.lt_or_ge v.length s.length with hlt | hle
    · have hlong : v ++ [d] <+: v ++ d :: y := ⟨y, by simp⟩
      have hv : v ++ [d] <+: s := by
        refine List.prefix_of_prefix_length_le hlong h ?_
        rw [List.length_append]
        exact hlt
      exact absurd (hv.subset (by simp)) hd
    · exact List.prefix_of_prefix_length_le h (List.prefix_append v _) hle
  · exact fun h => h.trans (List.prefix_append v _)

theorem symbolAt_append_newline (c : Char) (u y : List Char) :
    symbolAt c (u ++ '\n' :: y) = symbolAt c u := by
  have hline : ∀ s ∈ symbols, '\n' ∉ s.toList := by decide
  have hfront (s : String) (hs : s ∈ symbols) :
      s.toList.isPrefixOf (c :: (u ++ '\n' :: y)) = s.toList.isPrefixOf (c :: u) := by
    rw [Bool.eq_iff_iff, List.isPrefixOf_iff_prefix, List.isPrefixOf_iff_prefix, ← List.cons_append]
    exact prefix_append_cons_iff (hline s hs)
  rw [symbolAt, symbolAt, List.find?_congr hfront]

/-! ## The head of a text -/

theorem lineComment_of_append {u y : List Char} (hle : (lineComment (u ++ y)).more ≤ u.length) :
    lineComment u = lineComment (u ++ y) := by
  rw [lineComment, lineComment, count_of_append hle]

theorem lineComment_append_newline (u y : List Char) :
    lineComment (u ++ '\n' :: y) = lineComment u := by
  rw [lineComment, lineComment, count_append_stop rfl]

theorem Found.isStuck_of_token {r : Found} {kind : Token.Kind} {k : Nat} (h : r = .token kind k) :
    r.isStuck = false := by
  rw [h]
  rfl

theorem Found.isStuck_of_skipped {r : Found} {k : Nat} (h : r = .skipped k) :
    r.isStuck = false := by
  rw [h]
  rfl

theorem exists_number (c : Char) (cs : List Char) :
    ∃ kind k, number c cs = .token kind k ∧ (kind = .int ∨ kind = .float) := by
  rw [number_eq]
  split
  · exact ⟨_, _, rfl, .inr rfl⟩
  · split
    · exact ⟨_, _, rfl, .inl rfl⟩
    · exact ⟨_, _, rfl, .inl rfl⟩

theorem quoted_of_isStuck {quote : Char} {cs : List Char} (h : (quoted quote cs).isStuck = false) :
    (units quote cs).2 = true ∧ quoted quote cs = .token .string ((units quote cs).1 + 1) := by
  rw [quoted_eq] at h ⊢
  split at h
  · rename_i hclosed
    exact ⟨hclosed, if_pos hclosed⟩
  · cases h

theorem rootedName_of_isStuck {cs : List Char} (h : (rootedName cs).isStuck = false) :
    ∃ d ds, cs = d :: ds ∧ isNameStart d = true ∧
      rootedName cs = .token .name (nameTail ds + 1) := by
  cases cs with
  | nil => cases h
  | cons d ds =>
    rw [rootedName] at h
    split at h
    · rename_i hd
      exact ⟨d, ds, rfl, hd, if_pos hd⟩
    · cases h

theorem variableName_of_isStuck {cs : List Char} (h : (variableName cs).isStuck = false) :
    ∃ d ds, cs = d :: ds ∧ isNameStart d = true ∧
      variableName cs = .token .variable (count isNameChar ds + 1) := by
  cases cs with
  | nil => cases h
  | cons d ds =>
    rw [variableName] at h
    split at h
    · rename_i hd
      exact ⟨d, ds, rfl, hd, if_pos hd⟩
    · cases h

theorem blockComment_eq_token {cs : List Char} {kind : Token.Kind} {k : Nat}
    (h : blockComment cs = .token kind k) :
    kind = .doc ∧ ∃ n, closeComment cs = some n ∧ cs.head? = some '*' ∧ n ≠ 2 ∧ k = n + 1 := by
  rw [blockComment] at h
  split at h
  · cases h
  · rename_i n hn
    split at h
    · rename_i hdocuments
      obtain ⟨rfl, rfl⟩ := Found.token.inj h
      exact ⟨rfl, n, hn, hdocuments.1, hdocuments.2, rfl⟩
    · cases h

theorem rootedName_of_append {u y : List Char} (h : (rootedName (u ++ y)).isStuck = false)
    (hle : (rootedName (u ++ y)).more ≤ u.length) : rootedName u = rootedName (u ++ y) := by
  obtain ⟨d, ds, heq, hd, hname⟩ := rootedName_of_isStuck h
  rw [hname] at hle
  cases u with
  | nil => cases hle
  | cons e es =>
    obtain ⟨rfl, rfl⟩ : e = d ∧ es ++ y = ds := List.cons.inj heq
    rw [hname, rootedName, if_pos hd, nameTail_of_append (Nat.le_of_succ_le_succ hle)]

theorem rootedName_append_stop {d : Char} (hd : isNameChar d = false) (hslash : d ≠ '\\')
    {u : List Char} (h : (rootedName u).isStuck = false) (y : List Char) :
    rootedName (u ++ d :: y) = rootedName u := by
  cases u with
  | nil => cases h
  | cons e es => rw [List.cons_append, rootedName, rootedName, nameTail_append_stop hd hslash]

theorem variableName_of_append {u y : List Char} (h : (variableName (u ++ y)).isStuck = false)
    (hle : (variableName (u ++ y)).more ≤ u.length) : variableName u = variableName (u ++ y) := by
  obtain ⟨d, ds, heq, hd, hname⟩ := variableName_of_isStuck h
  rw [hname] at hle
  cases u with
  | nil => cases hle
  | cons e es =>
    obtain ⟨rfl, rfl⟩ : e = d ∧ es ++ y = ds := List.cons.inj heq
    rw [hname, variableName, if_pos hd, count_of_append (Nat.le_of_succ_le_succ hle)]

theorem variableName_append_stop {d : Char} (hd : isNameChar d = false) {u : List Char}
    (h : (variableName u).isStuck = false) (y : List Char) :
    variableName (u ++ d :: y) = variableName u := by
  cases u with
  | nil => cases h
  | cons e es => rw [List.cons_append, variableName, variableName, count_append_stop hd]

theorem blockComment_eq_skipped {cs : List Char} {k : Nat} (h : blockComment cs = .skipped k) :
    ∃ n, closeComment cs = some n ∧ ¬(cs.head? = some '*' ∧ n ≠ 2) ∧ k = n + 1 := by
  rw [blockComment] at h
  split at h
  · cases h
  · rename_i n hn
    split at h
    · cases h
    · rename_i hplain
      exact ⟨n, hn, hplain, (Found.skipped.inj h).symm⟩

theorem attributeGroup_eq_skipped {cs : List Char} {k : Nat} (h : attributeGroup cs = .skipped k) :
    ∃ n, closeAttribute {} cs = some n ∧ k = n + 1 := by
  rw [attributeGroup] at h
  split at h
  · rename_i n hn
    exact ⟨n, hn, (Found.skipped.inj h).symm⟩
  · cases h

theorem afterHash_other {cs : List Char} (h : cs.head? ≠ some '[') :
    afterHash cs = lineComment cs := by
  rw [afterHash]
  rintro ds rfl
  exact h rfl

theorem afterHash_of_append {u y : List Char} (h : (afterHash (u ++ y)).isStuck = false)
    (hle : (afterHash (u ++ y)).more ≤ u.length) : afterHash u = afterHash (u ++ y) := by
  by_cases hbracket : (u ++ y).head? = some '['
  · obtain ⟨rest, hrest⟩ := List.head?_eq_some_iff.1 hbracket
    cases u with
    | nil =>
      rw [hrest, afterHash, attributeGroup] at h hle
      split at h
      · simp [*, Found.more] at hle
      · cases h
    | cons c cs =>
      cases hrest
      exact attributeGroup_of_append h hle
  · rw [afterHash_other hbracket] at hle ⊢
    rw [← lineComment_of_append hle]
    refine afterHash_other ?_
    cases u with
    | nil => simp
    | cons c cs => exact hbracket

theorem afterHash_append_newline {u : List Char} (h : (afterHash u).isStuck = false)
    (y : List Char) : afterHash (u ++ '\n' :: y) = afterHash u := by
  by_cases hbracket : u.head? = some '['
  · obtain ⟨rest, rfl⟩ := List.head?_eq_some_iff.1 hbracket
    exact attributeGroup_append h _
  · rw [afterHash_other hbracket, ← lineComment_append_newline u y]
    refine afterHash_other ?_
    cases u with
    | nil => simp
    | cons c cs => exact hbracket

theorem afterHash_ne_token {cs : List Char} {kind : Token.Kind} {k : Nat} :
    afterHash cs ≠ .token kind k := by
  by_cases hbracket : cs.head? = some '['
  · obtain ⟨rest, rfl⟩ := List.head?_eq_some_iff.1 hbracket
    rw [afterHash, attributeGroup]
    split <;> simp
  · rw [afterHash_other hbracket]
    simp [lineComment]

theorem afterSlash_other {cs : List Char} (hstar : cs.head? ≠ some '*')
    (hslash : cs.head? ≠ some '/') : afterSlash cs = symbolAt '/' cs := by
  rw [afterSlash]
  · rintro ds rfl
    exact hstar rfl
  · rintro ds rfl
    exact hslash rfl

theorem afterSlash_eq_token {cs : List Char} {kind : Token.Kind} {k : Nat}
    (h : afterSlash cs = .token kind k) :
    (∃ ds, cs = '*' :: ds ∧ blockComment ds = .token kind k) ∨
      cs.head? ≠ some '*' ∧ cs.head? ≠ some '/' ∧ symbolAt '/' cs = .token kind k := by
  by_cases hstar : cs.head? = some '*'
  · obtain ⟨ds, rfl⟩ := List.head?_eq_some_iff.1 hstar
    exact .inl ⟨ds, rfl, h⟩
  · by_cases hslash : cs.head? = some '/'
    · obtain ⟨ds, rfl⟩ := List.head?_eq_some_iff.1 hslash
      cases h
    · rw [afterSlash_other hstar hslash] at h
      exact .inr ⟨hstar, hslash, h⟩

theorem afterSlash_of_append {u y : List Char} (h : (afterSlash (u ++ y)).isStuck = false)
    (hle : (afterSlash (u ++ y)).more ≤ u.length) : afterSlash u = afterSlash (u ++ y) := by
  by_cases hstar : (u ++ y).head? = some '*'
  · obtain ⟨rest, hrest⟩ := List.head?_eq_some_iff.1 hstar
    cases u with
    | nil =>
      rw [hrest, afterSlash, blockComment] at h hle
      split at h
      · cases h
      · rename_i hclosed
        simp only [hclosed] at hle
        split at hle <;> cases hle
    | cons c cs =>
      cases hrest
      exact blockComment_of_append h hle
  · by_cases hslash : (u ++ y).head? = some '/'
    · obtain ⟨rest, hrest⟩ := List.head?_eq_some_iff.1 hslash
      cases u with
      | nil =>
        rw [hrest] at hle
        exact absurd hle (by simp [afterSlash, lineComment, count, Found.more])
      | cons c cs =>
        cases hrest
        exact lineComment_of_append hle
    · rw [afterSlash_other hstar hslash] at h hle ⊢
      rw [← symbolAt_of_append h hle]
      cases u with
      | nil => rfl
      | cons c cs => exact afterSlash_other hstar hslash

theorem afterSlash_append_newline {u : List Char} (h : (afterSlash u).isStuck = false)
    (y : List Char) : afterSlash (u ++ '\n' :: y) = afterSlash u := by
  by_cases hstar : u.head? = some '*'
  · obtain ⟨rest, rfl⟩ := List.head?_eq_some_iff.1 hstar
    exact blockComment_append h _
  · by_cases hslash : u.head? = some '/'
    · obtain ⟨rest, rfl⟩ := List.head?_eq_some_iff.1 hslash
      exact lineComment_append_newline ('/' :: rest) y
    · rw [afterSlash_other hstar hslash, ← symbolAt_append_newline '/' u y]
      cases u with
      | nil => exact afterSlash_other (by simp) (by simp)
      | cons c cs => exact afterSlash_other hstar hslash

theorem isPrefixOf_append_newline {mark u : List Char} (h : '\n' ∉ mark) (y : List Char) :
    mark.isPrefixOf (u ++ '\n' :: y) = mark.isPrefixOf u := by
  rw [Bool.eq_iff_iff, List.isPrefixOf_iff_prefix, List.isPrefixOf_iff_prefix]
  exact prefix_append_cons_iff h

/-- A mark within `u` at the head of `u ++ y` is at the head of `u`. -/
theorem isPrefixOf_of_append {mark u y : List Char} (hle : mark.length ≤ u.length) :
    mark.isPrefixOf u = mark.isPrefixOf (u ++ y) := by
  rw [Bool.eq_iff_iff, List.isPrefixOf_iff_prefix, List.isPrefixOf_iff_prefix]
  exact ⟨fun h => h.trans (List.prefix_append u y),
    fun h => List.prefix_of_prefix_length_le h (List.prefix_append u y) hle⟩

/-- A mark that is not at the head of `u ++ y` is not at the head of `u` either. -/
theorem isPrefixOf_eq_false_of_append {mark u y : List Char}
    (h : mark.isPrefixOf (u ++ y) = false) : mark.isPrefixOf u = false := by
  rw [← Bool.not_eq_true, List.isPrefixOf_iff_prefix] at h ⊢
  exact fun hu => h (hu.trans (List.prefix_append u y))

theorem tagOrSymbol_of_append {c : Char} {rest u y : List Char}
    (h : (tagOrSymbol c rest (u ++ y)).isStuck = false)
    (hle : (tagOrSymbol c rest (u ++ y)).more ≤ u.length) :
    tagOrSymbol c rest u = tagOrSymbol c rest (u ++ y) := by
  rw [tagOrSymbol] at h hle ⊢
  rw [tagOrSymbol]
  split at h
  · rename_i htag
    rw [if_pos htag] at hle
    have hle : rest.length ≤ u.length := hle
    rw [isPrefixOf_of_append hle, if_pos htag, if_pos htag]
  · rename_i htag
    rw [if_neg htag] at hle ⊢
    have htag' := isPrefixOf_eq_false_of_append (Bool.not_eq_true _ ▸ htag)
    rw [htag', ← symbolAt_of_append h hle]
    rfl

theorem tagOrSymbol_append_newline {rest : List Char} (hrest : '\n' ∉ rest) (c : Char)
    (u y : List Char) : tagOrSymbol c rest (u ++ '\n' :: y) = tagOrSymbol c rest u := by
  rw [tagOrSymbol, tagOrSymbol, isPrefixOf_append_newline hrest, symbolAt_append_newline]

theorem tagOrSymbol_eq_token {c : Char} {rest cs : List Char} {kind : Token.Kind} {k : Nat}
    (h : tagOrSymbol c rest cs = .token kind k) :
    rest.isPrefixOf cs = false ∧ symbolAt c cs = .token kind k := by
  rw [tagOrSymbol] at h
  split at h
  · cases h
  · rename_i htag
    exact ⟨Bool.not_eq_true _ ▸ htag, h⟩

/-- What holds of every recogniser holds of the one that the character `c` leads to. -/
theorem found_cases {c : Char} {P : (List Char → Found) → Prop}
    (space : isSpace c = true → P blanks) (name : isNameStart c = true → P plainName)
    (digit : c.isDigit = true → P (number c)) (quote : c = '\'' ∨ c = '"' → P (quoted c))
    (root : c = '\\' → P rootedName) (sigil : c = '$' → P variableName)
    (hash : c = '#' → P afterHash) (slash : c = '/' → P afterSlash)
    (openTag : c = '<' → P (tagOrSymbol '<' ['?', 'p', 'h', 'p']))
    (closeTag : c = '?' → P (tagOrSymbol '?' ['>'])) (symbol : P (symbolAt c)) : P (found c) := by
  unfold found
  refine iteInduction space fun _ => iteInduction name fun _ => iteInduction digit fun _ => ?_
  refine iteInduction (fun h => quote (by simpa using h)) fun _ => ?_
  refine iteInduction (fun h => root (eq_of_beq h)) fun _ => ?_
  refine iteInduction (fun h => sigil (eq_of_beq h)) fun _ => ?_
  refine iteInduction (fun h => hash (eq_of_beq h)) fun _ => ?_
  refine iteInduction (fun h => slash (eq_of_beq h)) fun _ => ?_
  refine iteInduction (fun h => openTag (eq_of_beq h)) fun _ => ?_
  exact iteInduction (fun h => closeTag (eq_of_beq h)) fun _ => symbol

/-- How a token of a kind stands at the head of the text `c :: cs`, with `k` characters after its
first. -/
inductive TokenAt (c : Char) (cs : List Char) (k : Nat) : Token.Kind → Prop
  | name : isNameStart c = true → nameTail cs = k → TokenAt c cs k .name
  | rootedName {d : Char} {ds : List Char} :
      c = '\\' → cs = d :: ds → isNameStart d = true → nameTail ds + 1 = k → TokenAt c cs k .name
  | variableName {d : Char} {ds : List Char} :
      c = '$' → cs = d :: ds → isNameStart d = true → count isNameChar ds + 1 = k →
      TokenAt c cs k .variable
  | number {kind : Token.Kind} :
      c.isDigit = true → number c cs = .token kind k → kind = .int ∨ kind = .float →
      TokenAt c cs k kind
  | string :
      c = '\'' ∨ c = '"' → (units c cs).2 = true → (units c cs).1 + 1 = k → TokenAt c cs k .string
  | doc {ds : List Char} {n : Nat} :
      c = '/' → cs = '*' :: ds → closeComment ds = some n → ds.head? = some '*' → n ≠ 2 → n + 1 = k →
      TokenAt c cs k .doc
  | symbol : symbolAt c cs = .token .symbol k → TokenAt c cs k .symbol

/-- Every token is found in one of these ways. -/
theorem tokenAt_of_found {c : Char} {cs : List Char} {kind : Token.Kind} {k : Nat}
    (h : found c cs = .token kind k) : TokenAt c cs k kind := by
  have symbol (h : symbolAt c cs = .token kind k) : TokenAt c cs k kind := by
    obtain ⟨rfl, -⟩ := symbolAt_eq_token_iff.1 h
    exact .symbol h
  refine found_cases (P := fun r => r cs = .token kind k → TokenAt c cs k kind)
    ?space ?name ?digit ?quote ?root ?sigil ?hash ?slash ?openTag ?closeTag ?symbol h
  case space => rintro - ⟨⟩
  case name =>
    rintro hc ⟨⟩
    exact .name hc rfl
  case digit =>
    intro hc h
    obtain ⟨kind', k', heq, hkind⟩ := exists_number c cs
    obtain ⟨rfl, rfl⟩ := Found.token.inj (heq.symm.trans h)
    exact .number hc h hkind
  case quote =>
    intro hc h
    obtain ⟨hclosed, heq⟩ := quoted_of_isStuck (Found.isStuck_of_token h)
    obtain ⟨rfl, hk⟩ := Found.token.inj (heq.symm.trans h)
    exact .string hc hclosed hk
  case root =>
    intro hc h
    obtain ⟨d, ds, hcs, hd, heq⟩ := rootedName_of_isStuck (Found.isStuck_of_token h)
    obtain ⟨rfl, hk⟩ := Found.token.inj (heq.symm.trans h)
    exact .rootedName hc hcs hd hk
  case sigil =>
    intro hc h
    obtain ⟨d, ds, hcs, hd, heq⟩ := variableName_of_isStuck (Found.isStuck_of_token h)
    obtain ⟨rfl, hk⟩ := Found.token.inj (heq.symm.trans h)
    exact .variableName hc hcs hd hk
  case hash => exact fun _ h => (afterHash_ne_token h).elim
  case slash =>
    rintro rfl h
    rcases afterSlash_eq_token h with ⟨ds, hds, hcomment⟩ | ⟨-, -, h⟩
    · obtain ⟨rfl, n, hn, hstar, hne, hk⟩ := blockComment_eq_token hcomment
      exact .doc rfl hds hn hstar hne hk.symm
    · exact symbol h
  case openTag =>
    rintro rfl h
    exact symbol (tagOrSymbol_eq_token h).2
  case closeTag =>
    rintro rfl h
    exact symbol (tagOrSymbol_eq_token h).2
  case symbol => exact symbol

/-- What is found within `u` at the head of `u ++ y` is found in `u` alone. -/
theorem found_of_append {c : Char} {u y : List Char} (h : (found c (u ++ y)).isStuck = false)
    (hle : (found c (u ++ y)).more ≤ u.length) : found c u = found c (u ++ y) := by
  refine found_cases (P := fun r => (r (u ++ y)).isStuck = false → (r (u ++ y)).more ≤ u.length →
    r u = r (u ++ y)) ?space ?name ?digit ?quote ?root ?sigil ?hash ?slash ?openTag ?closeTag
    ?symbol h hle
  case space => exact fun _ _ hle => congrArg Found.skipped (count_of_append hle)
  case name => exact fun _ _ hle => congrArg (Found.token .name) (nameTail_of_append hle)
  case digit => exact fun _ _ hle => number_of_append hle
  case quote => exact fun _ h hle => quoted_of_append h hle
  case root => exact fun _ h hle => rootedName_of_append h hle
  case sigil => exact fun _ h hle => variableName_of_append h hle
  case hash => exact fun _ h hle => afterHash_of_append h hle
  case slash => exact fun _ h hle => afterSlash_of_append h hle
  case openTag => exact fun _ h hle => tagOrSymbol_of_append h hle
  case closeTag => exact fun _ h hle => tagOrSymbol_of_append h hle
  case symbol => exact fun h hle => symbolAt_of_append h hle

/-- What is found and ends with a text is found in that text alone. -/
theorem found_alone {c : Char} {w rest : List Char} {r : Found} (h : found c (w ++ rest) = r)
    (hstuck : r.isStuck = false) (hw : r.more = w.length) : found c w = r := by
  rw [found_of_append (by rw [h]; exact hstuck), h]
  rw [h]
  exact Nat.le_of_eq hw

/-- What is found and ends within a text is found whatever is cut off after it. -/
theorem found_within {c : Char} {w b rest : List Char} {r : Found}
    (h : found c (w ++ (b ++ rest)) = r) (hstuck : r.isStuck = false) (hw : r.more = w.length) :
    found c (w ++ b) = r := by
  rw [← List.append_assoc] at h
  rw [found_of_append (by rw [h]; exact hstuck), h]
  rw [h, hw, List.length_append]
  exact Nat.le_add_right _ _

theorem found_le_length {c : Char} {u : List Char} (h : (found c u).isStuck = false) :
    (found c u).more ≤ u.length := by
  have symbol {c : Char} (h : (symbolAt c u).isStuck = false) : (symbolAt c u).more ≤ u.length := by
    obtain ⟨k, hk⟩ := symbolAt_eq_token h
    obtain ⟨-, s, -, hfront, hlength, -⟩ := symbolAt_eq_token_iff.1 hk
    have hle := hfront.length_le
    rw [hlength, List.length_cons] at hle
    rw [hk]
    exact Nat.le_of_succ_le_succ hle
  have tag {c : Char} {rest : List Char} (h : (tagOrSymbol c rest u).isStuck = false) :
      (tagOrSymbol c rest u).more ≤ u.length := by
    rw [tagOrSymbol] at h ⊢
    split
    · rename_i htag
      exact (List.isPrefixOf_iff_prefix.1 htag).length_le
    · rename_i htag
      rw [if_neg htag] at h
      exact symbol h
  refine found_cases (P := fun r => (r u).isStuck = false → (r u).more ≤ u.length)
    ?space ?name ?digit ?quote ?root ?sigil ?hash ?slash ?openTag ?closeTag ?symbol h
  case space => exact fun _ _ => count_le_length isSpace u
  case name => exact fun _ _ => nameTail_le_length u
  case digit => exact fun _ _ => number_le_length c u
  case quote => exact fun _ h => quoted_le_length h
  case root =>
    intro _ h
    obtain ⟨d, ds, rfl, -, heq⟩ := rootedName_of_isStuck h
    rw [heq]
    exact Nat.succ_le_succ (nameTail_le_length ds)
  case sigil =>
    intro _ h
    obtain ⟨d, ds, rfl, -, heq⟩ := variableName_of_isStuck h
    rw [heq]
    exact Nat.succ_le_succ (count_le_length isNameChar ds)
  case hash =>
    intro _ h
    by_cases hbracket : u.head? = some '['
    · obtain ⟨rest, rfl⟩ := List.head?_eq_some_iff.1 hbracket
      exact attributeGroup_le_length h
    · rw [afterHash_other hbracket]
      exact count_le_length _ u
  case slash =>
    intro _ h
    by_cases hstar : u.head? = some '*'
    · obtain ⟨rest, rfl⟩ := List.head?_eq_some_iff.1 hstar
      exact blockComment_le_length h
    · by_cases hslash : u.head? = some '/'
      · obtain ⟨rest, rfl⟩ := List.head?_eq_some_iff.1 hslash
        exact count_le_length _ ('/' :: rest)
      · rw [afterSlash_other hstar hslash] at h ⊢
        exact symbol h
  case openTag => exact fun _ h => tag h
  case closeTag => exact fun _ h => tag h
  case symbol => exact fun h => symbol h

/-- A line feed ends whatever was found before it, unless that is a run of blanks. -/
theorem found_append_newline {c : Char} (hc : isSpace c = false) {u : List Char}
    (h : (found c u).isStuck = false) (y : List Char) : found c (u ++ '\n' :: y) = found c u := by
  refine found_cases (P := fun r => (r u).isStuck = false → r (u ++ '\n' :: y) = r u)
    ?space ?name ?digit ?quote ?root ?sigil ?hash ?slash ?openTag ?closeTag ?symbol h
  case space => exact fun hspace => absurd hspace (by simp [hc])
  case name =>
    exact fun _ _ => congrArg (Found.token .name) (nameTail_append_stop rfl (by decide) u y)
  case digit => exact fun _ _ => number_append_stop rfl (by decide) y (.inl rfl)
  case quote => exact fun _ h => quoted_append h _
  case root => exact fun _ h => rootedName_append_stop rfl (by decide) h y
  case sigil => exact fun _ h => variableName_append_stop rfl h y
  case hash => exact fun _ h => afterHash_append_newline h y
  case slash => exact fun _ h => afterSlash_append_newline h y
  case openTag => exact fun _ _ => tagOrSymbol_append_newline (by decide) '<' u y
  case closeTag => exact fun _ _ => tagOrSymbol_append_newline (by decide) '?' u y
  case symbol => exact fun _ => symbolAt_append_newline c u y

/-! ## Symbols and marks -/

/-- The comments and tags that begin as a symbol could. -/
def marks : List String := ["/*", "//", "<?php", "?>"]

theorem found_mark {c : Char} {cs : List Char} {m : String} (hm : m ∈ marks)
    (hfront : m.toList <+: c :: cs) (k : Nat) : found c cs ≠ .token .symbol k := by
  intro h
  obtain ⟨rest, hrest⟩ := hfront
  simp only [marks, List.mem_cons, List.not_mem_nil, or_false] at hm
  rcases hm with rfl | rfl | rfl | rfl
  · have hrest : '/' :: '*' :: rest = c :: cs := hrest
    cases hrest
    cases (blockComment_eq_token h).1
  · have hrest : '/' :: '/' :: rest = c :: cs := hrest
    cases hrest
    cases h
  · have hrest : '<' :: '?' :: 'p' :: 'h' :: 'p' :: rest = c :: cs := hrest
    cases hrest
    cases h
  · have hrest : '?' :: '>' :: rest = c :: cs := hrest
    cases hrest
    cases h

/-- Where a symbol is found, only a mark keeps `symbolAt` from deciding. -/
theorem found_eq_symbolAt {c : Char} {cs : List Char} {k : Nat}
    (h : found c cs = .token .symbol k) {cs' : List Char}
    (hmarks : ∀ m ∈ marks, ¬m.toList <+: c :: cs') : found c cs' = symbolAt c cs' := by
  have other {r : Found} {kind : Token.Kind} {n : Nat} (hr : r = .token kind n)
      (hkind : kind ≠ .symbol) (h : r = .token .symbol k) : False :=
    hkind (Found.token.inj (hr.symm.trans h)).1
  have tag {rest : List Char} (m : String) (hm : m ∈ marks) (hc : m.toList = c :: rest) :
      tagOrSymbol c rest cs' = symbolAt c cs' := by
    rw [tagOrSymbol, if_neg]
    rw [List.isPrefixOf_iff_prefix]
    intro hfront
    exact hmarks m hm (by rw [hc]; exact List.cons_prefix_cons.2 ⟨rfl, hfront⟩)
  refine found_cases (P := fun r => r cs = .token .symbol k → r cs' = symbolAt c cs')
    ?space ?name ?digit ?quote ?root ?sigil ?hash ?slash ?openTag ?closeTag ?symbol h
  case space => rintro - ⟨⟩
  case name => rintro - ⟨⟩
  case digit =>
    intro _ h
    obtain ⟨kind, n, heq, hkind⟩ := exists_number c cs
    exact (other heq (by rcases hkind with rfl | rfl <;> decide) h).elim
  case quote =>
    exact fun _ h => (other (quoted_of_isStuck (Found.isStuck_of_token h)).2 (by decide) h).elim
  case root =>
    intro _ h
    obtain ⟨_, _, -, -, heq⟩ := rootedName_of_isStuck (Found.isStuck_of_token h)
    exact (other heq (by decide) h).elim
  case sigil =>
    intro _ h
    obtain ⟨_, _, -, -, heq⟩ := variableName_of_isStuck (Found.isStuck_of_token h)
    exact (other heq (by decide) h).elim
  case hash => exact fun _ h => (afterHash_ne_token h).elim
  case slash =>
    rintro rfl -
    refine afterSlash_other ?_ ?_ <;> intro hhead <;>
      obtain ⟨rest, rfl⟩ := List.head?_eq_some_iff.1 hhead
    · exact hmarks "/*" (by decide) ⟨rest, rfl⟩
    · exact hmarks "//" (by decide) ⟨rest, rfl⟩
  case openTag =>
    rintro rfl -
    exact tag "<?php" (by decide) rfl
  case closeTag =>
    rintro rfl -
    exact tag "?>" (by decide) rfl
  case symbol => exact fun _ => rfl

/-- A symbol is also found before a text with which it forms no longer symbol and no mark, and only
there. -/
theorem found_append_symbol_iff {c : Char} {w : List Char}
    (h : found c w = .token .symbol w.length) (y : List Char) :
    found c (w ++ y) = .token .symbol w.length ↔
      ∀ s ∈ marks ++ symbols, s.toList <+: c :: w ++ y → s.toList.length ≤ w.length + 1 := by
  constructor
  · intro hy s hs hfront
    have hmarks : ∀ m ∈ marks, ¬m.toList <+: c :: (w ++ y) :=
      fun m hm hfront => found_mark hm hfront _ hy
    rcases List.mem_append.1 hs with hs | hs
    · exact absurd hfront (hmarks s hs)
    · rw [found_eq_symbolAt h hmarks] at hy
      obtain ⟨-, -, -, -, -, hlongest⟩ := symbolAt_eq_token_iff.1 hy
      exact hlongest s hs hfront
  · intro hy
    have hmarks : ∀ m ∈ marks, ¬m.toList <+: c :: (w ++ y) := by
      intro m hm hfront
      have hle := hy m (List.mem_append_left _ hm) hfront
      exact found_mark hm
        (List.prefix_of_prefix_length_le hfront (List.prefix_append (c :: w) y) hle) _ h
    rw [found_eq_symbolAt h hmarks]
    rw [found_eq_symbolAt h fun m hm hfront => found_mark hm hfront _ h] at h
    exact symbolAt_append h fun s hs => hy s (List.mem_append_right _ hs)

/-! ## Stops and separators -/

/-- A token other than a symbol is also found before a character that continues neither names nor
numbers. A sign could still be of an exponent, unless the token takes the whole text. -/
theorem found_append_stop {c d : Char} (hd : isStop d = true) {u : List Char}
    {kind : Token.Kind} {k : Nat} (hsign : isSign d = false ∨ k = u.length) (hkind : kind ≠ .symbol)
    (h : found c u = .token kind k) (y : List Char) : found c (u ++ d :: y) = .token kind k := by
  obtain ⟨hname, hslash, hpoint⟩ := isStop_iff.1 hd
  have symbol {c : Char} (h : symbolAt c u = .token kind k) : False :=
    hkind (symbolAt_eq_token_iff.1 h).1
  refine found_cases (P := fun r => r u = .token kind k → r (u ++ d :: y) = .token kind k)
    ?space ?name ?digit ?quote ?root ?sigil ?hash ?slash ?openTag ?closeTag ?symbol h
  case space => rintro - ⟨⟩
  case name =>
    intro _ h
    rw [← h, plainName, plainName, nameTail_append_stop hname hslash]
  case digit =>
    intro _ h
    rw [← h]
    exact number_append_stop hname hpoint y (hsign.imp_right fun hk => by rw [h]; exact hk)
  case quote =>
    intro _ h
    rw [← h]
    exact quoted_append (Found.isStuck_of_token h) _
  case root =>
    intro _ h
    rw [← h]
    exact rootedName_append_stop hname hslash (Found.isStuck_of_token h) y
  case sigil =>
    intro _ h
    rw [← h]
    exact variableName_append_stop hname (Found.isStuck_of_token h) y
  case hash => exact fun _ h => (afterHash_ne_token h).elim
  case slash =>
    intro _ h
    rcases afterSlash_eq_token h with ⟨ds, rfl, hcomment⟩ | ⟨-, -, h⟩
    · rw [← h]
      exact blockComment_append (Found.isStuck_of_token hcomment) _
    · exact (symbol h).elim
  case openTag => exact fun _ h => (symbol (tagOrSymbol_eq_token h).2).elim
  case closeTag => exact fun _ h => (symbol (tagOrSymbol_eq_token h).2).elim
  case symbol => exact fun h => (symbol h).elim

/-- Whether a character ends every name, number and symbol that is none of its own. -/
def separates (d : Char) : Bool :=
  isStop d && !isSign d && symbols.all fun s => !s.toList.contains d || s.toList == [d]

theorem separates_iff {d : Char} :
    separates d = true ↔ isStop d = true ∧ isSign d = false ∧
      ∀ s ∈ symbols, d ∈ s.toList → s.toList = [d] := by
  unfold separates
  simp only [Bool.and_eq_true, Bool.not_eq_true', List.all_eq_true, Bool.or_eq_true,
    List.contains_eq_mem, decide_eq_false_iff_not, beq_iff_eq, and_assoc]
  refine and_congr_right fun _ => and_congr_right fun _ => forall₂_congr fun s _ => ?_
  exact Decidable.imp_iff_not_or.symm

theorem notMem_mark {d : Char} (hd : separates d = true) : ∀ m ∈ marks, d ∉ m.toList := by
  have hall : (marks.all fun m => m.toList.all (!separates ·)) = true := by decide
  intro m hm hmem
  have hd' := List.all_eq_true.1 (List.all_eq_true.1 hall m hm) d hmem
  rw [hd] at hd'
  cases hd'

theorem symbolAt_append_separator {d : Char} (hd : separates d = true) (c : Char) (u y : List Char) :
    symbolAt c (u ++ d :: y) = symbolAt c u := by
  have hfront (s : String) (hs : s ∈ symbols) :
      s.toList.isPrefixOf (c :: (u ++ d :: y)) = s.toList.isPrefixOf (c :: u) := by
    rw [Bool.eq_iff_iff, List.isPrefixOf_iff_prefix, List.isPrefixOf_iff_prefix, ← List.cons_append]
    by_cases hmem : d ∈ s.toList
    · rw [(separates_iff.1 hd).2.2 s hs hmem]
      simp
    · exact prefix_append_cons_iff hmem
  rw [symbolAt, symbolAt, List.find?_congr hfront]

/-- A separator changes nothing about a token before it. -/
theorem found_append_separator {c d : Char} (hd : separates d = true) {u : List Char}
    {kind : Token.Kind} {k : Nat} (h : found c u = .token kind k) (y : List Char) :
    found c (u ++ d :: y) = .token kind k := by
  obtain ⟨hstop, hsign, -⟩ := separates_iff.1 hd
  by_cases hkind : kind = .symbol
  · obtain rfl := hkind
    have hmarks : ∀ m ∈ marks, ¬m.toList <+: c :: u := fun m hm hfront => found_mark hm hfront k h
    have hmarks' : ∀ m ∈ marks, ¬m.toList <+: c :: (u ++ d :: y) := fun m hm hfront =>
      hmarks m hm ((prefix_append_cons_iff (v := c :: u) (notMem_mark hd m hm)).1 hfront)
    rw [found_eq_symbolAt h hmarks', symbolAt_append_separator hd, ← found_eq_symbolAt h hmarks, h]
  · exact found_append_stop hstop (.inl hsign) hkind h y

end CurryGen.Scan

import CurryGen.Proofs.Token.Partition
import Mathlib.Computability.Language

/-!
# Rules of the scan

What a scan looks for is given by rules, each of them a regular language: what may be skipped and what
the texts of tokens are. No rule matches the text at which a scan gets stuck, unless a comment or an
attribute opens there that is never closed; and what stands there does not change what was read before.

* `Rule.language`: the texts that a rule matches.
* `Rule.headedBy_starts`: the characters that such a text begins with.
* `Blocked`: a text at whose head nothing can be found.
* `blocked_iff`: these are the texts at which a scan gets stuck.
* `Run.read_front`: the front of a text through a token or up to an error is read as it is in the text.
-/

namespace CurryGen.Scan

open Computability

namespace Rule

/-! ## Languages -/

/-- A single character. -/
def one (p : Char → Bool) : Language Char := {w | ∃ c, p c = true ∧ w = [c]}

/-- Any number of characters. -/
def many (p : Char → Bool) : Language Char := (one p)∗

/-- At least one character. -/
def many₁ (p : Char → Bool) : Language Char := one p * many p

/-- Just this text. -/
def exactly (s : String) : Language Char := {s.toList}

/-- The texts of a language, and the empty one. -/
def perhaps (L : Language Char) : Language Char := 1 + L

/-- Every text of the language begins with a character like this. -/
def HeadedBy (P : Char → Prop) (L : Language Char) : Prop := ∀ w ∈ L, ∃ c u, w = c :: u ∧ P c

section

variable {p : Char → Bool} {P Q : Char → Prop} {L M : Language Char} {w : List Char}

theorem headedBy_one : HeadedBy (p · = true) (one p) := by
  intro w hw
  obtain ⟨c, hc, rfl⟩ := hw
  exact ⟨c, [], rfl, hc⟩

theorem headedBy_exactly {s : String} {c : Char} {u : List Char} (hs : s.toList = c :: u) :
    HeadedBy (· = c) (exactly s) := by
  intro w hw
  obtain rfl : w = s.toList := hw
  exact ⟨c, u, hs, rfl⟩

namespace HeadedBy

theorem mul (h : HeadedBy P L) (M : Language Char) : HeadedBy P (L * M) := by
  intro w hw
  obtain ⟨a, ha, b, -, rfl⟩ := Language.mem_mul.1 hw
  obtain ⟨c, u, rfl, hc⟩ := h a ha
  exact ⟨c, u ++ b, rfl, hc⟩

theorem add (hL : HeadedBy P L) (hM : HeadedBy P M) : HeadedBy P (L + M) := by
  intro w hw
  exact ((Language.mem_add L M w).1 hw).elim (hL w) (hM w)

theorem mono (h : HeadedBy P L) (hPQ : ∀ c, P c → Q c) : HeadedBy Q L := by
  intro w hw
  obtain ⟨c, u, rfl, hc⟩ := h w hw
  exact ⟨c, u, rfl, hPQ c hc⟩

theorem perhaps_mul (hL : HeadedBy P L) (hM : HeadedBy P M) : HeadedBy P (perhaps L * M) := by
  intro w hw
  obtain ⟨a, ha, b, hb, rfl⟩ := Language.mem_mul.1 hw
  rcases (Language.mem_add 1 L a).1 ha with ha | ha
  · obtain rfl : a = [] := ha
    exact hM b hb
  · obtain ⟨c, u, rfl, hc⟩ := hL a ha
    exact ⟨c, u ++ b, rfl, hc⟩

end HeadedBy

end

/-- A string's character, or a backslash and the character that it hides. -/
def unit (quote : Char) : Language Char :=
  one (fun c => c != quote && c != '\\') + exactly "\\" * one (· != '\n')

/-- A string between two such quotes. -/
def stringOf (quote : Char) : Language Char := one (· == quote) * ((unit quote)∗ * one (· == quote))

/-- A name without backslashes. -/
def segment : Language Char := one isNameStart * many isNameChar

/-- The exponent of a number. -/
def power : Language Char :=
  one (fun c => c == 'e' || c == 'E') * perhaps (one isSign) * many₁ Char.isDigit

end Rule

/-! ## Rules -/

/-- What can be found at the head of a text: five sorts of texts that are skipped, and the tokens. Of
comments between `/*` and `*/` and of attribute groups a rule matches only the opening. -/
inductive Rule where
  | blanks
  | openTag
  | closeTag
  | lineComment
  | hashComment
  | openComment
  | openAttribute
  | variableName
  | name
  | int
  | float
  | string
  | symbol
deriving DecidableEq

namespace Rule

/-- The texts that the rule matches. -/
def language : Rule → Language Char
  | blanks => many₁ isSpace
  | openTag => exactly "<?php"
  | closeTag => exactly "?>"
  | lineComment => exactly "//" * many (· != '\n')
  | hashComment => exactly "#" * perhaps (one (fun c => c != '[' && c != '\n') * many (· != '\n'))
  | openComment => exactly "/*"
  | openAttribute => exactly "#["
  | variableName => exactly "$" * segment
  | name => perhaps (exactly "\\") * (segment * (exactly "\\" * segment)∗)
  | int => many₁ Char.isDigit + exactly "0" * one isHexMark * many₁ isHexDigit
  | float =>
    many₁ Char.isDigit * (exactly "." * many₁ Char.isDigit * perhaps power)
      + many₁ Char.isDigit * power
  | string => stringOf '\'' + stringOf '"'
  | symbol => {w | ∃ s ∈ symbols, w = s.toList}

/-- Whether a text of the rule can begin with the character. -/
def starts : Rule → Char → Bool
  | blanks, c => isSpace c
  | openTag, c => c == '<'
  | closeTag, c => c == '?'
  | lineComment, c | openComment, c => c == '/'
  | hashComment, c | openAttribute, c => c == '#'
  | variableName, c => c == '$'
  | name, c => c == '\\' || isNameStart c
  | int, c | float, c => c.isDigit
  | string, c => c == '\'' || c == '"'
  | symbol, c => symbols.any (·.toList.head? == some c)

theorem headedBy_starts (r : Rule) : HeadedBy (r.starts · = true) r.language := by
  have mark {s : String} {d : Char} {u : List Char} (hs : s.toList = d :: u) (hd : r.starts d = true) :
      HeadedBy (r.starts · = true) (exactly s) :=
    (headedBy_exactly hs).mono fun c hc => by rwa [hc]
  have digits (M : Language Char) : HeadedBy (·.isDigit = true) (many₁ Char.isDigit * M) :=
    (headedBy_one.mul _).mul M
  cases r with
  | blanks => exact headedBy_one.mul _
  | openTag => exact mark rfl rfl
  | closeTag => exact mark rfl rfl
  | lineComment => exact (mark rfl rfl).mul _
  | hashComment => exact (mark rfl rfl).mul _
  | openComment => exact mark rfl rfl
  | openAttribute => exact mark rfl rfl
  | variableName => exact (mark rfl rfl).mul _
  | name =>
    refine (mark rfl rfl).perhaps_mul (((headedBy_one.mul _).mul _).mono fun c hc => ?_)
    exact Bool.or_eq_true_iff.2 (.inr hc)
  | int => exact (headedBy_one.mul _).add (((mark rfl rfl).mul _).mul _)
  | float => exact (digits _).add (digits _)
  | string =>
    refine HeadedBy.add (headedBy_one.mul _ |>.mono fun c hc => ?_)
      (headedBy_one.mul _ |>.mono fun c hc => ?_)
    · exact Bool.or_eq_true_iff.2 (.inl hc)
    · exact Bool.or_eq_true_iff.2 (.inr hc)
  | symbol =>
    intro w hw
    obtain ⟨s, hs, rfl⟩ := hw
    obtain ⟨c, u, hcu⟩ := List.exists_cons_of_ne_nil (symbols_ne_nil s hs)
    exact ⟨c, u, hcu, List.any_eq_true.2 ⟨s, hs, by simp [hcu]⟩⟩

end Rule

/-! ## Where nothing is found -/

/-- No rule matches the head of the text. -/
def Unmatched (text : List Char) : Prop :=
  ∀ (r : Rule), ∀ w ∈ r.language, w ≠ [] → ¬w <+: text

/-- Nothing can be found at the head of the text. -/
inductive Blocked (text : List Char) : Prop
  /-- A comment opens that no `*/` closes. -/
  | comment : "/*".toList <+: text → ¬"*/".toList <:+: text.drop 2 → Blocked text
  /-- An attribute group opens whose bracket is never closed outside quotes. -/
  | group : "#[".toList <+: text →
      (∀ w, Bracketed w → ¬"#[".toList ++ w ++ "]".toList <+: text) → Blocked text
  | unmatched : Unmatched text → Blocked text

/-- Only a rule whose texts begin with the first character can match. -/
theorem unmatched_of_starts {c : Char} {cs : List Char}
    (h : ∀ r : Rule, r.starts c = true → ∀ w, c :: w ∈ r.language → ¬w <+: cs) :
    Unmatched (c :: cs) := by
  intro r w hw _ hfront
  obtain ⟨d, u, rfl, hd⟩ := r.headedBy_starts w hw
  obtain ⟨rfl, hrest⟩ := List.cons_prefix_cons.1 hfront
  exact h r hd u hw hrest

/-! ## Strings -/

/-- What stands between the quotes of a string is counted through the closing quote. -/
theorem units_of_mem {quote : Char} {u : List Char} (hquote : quote ≠ '\\')
    (hu : u ∈ (Rule.unit quote)∗) (y : List Char) :
    units quote (u ++ quote :: y) = (u.length, true) := by
  obtain ⟨parts, rfl, hparts⟩ := Language.mem_kstar.1 hu
  clear hu
  induction parts with
  | nil => exact (units_cons hquote y).trans (by simp)
  | cons part parts ih =>
    obtain ⟨hpart, hrest⟩ := List.forall_mem_cons.1 hparts
    rw [List.flatten_cons, List.append_assoc]
    rcases (Language.mem_add _ _ _).1 hpart with hplain | hhidden
    · obtain ⟨c, hc, rfl⟩ := hplain
      simp only [Bool.and_eq_true, bne_iff_ne] at hc
      rw [List.singleton_append, units_cons hc.2, ih hrest]
      simp [hc.1]
    · obtain ⟨slash, rfl, hidden, ⟨c, hc, rfl⟩, rfl⟩ := Language.mem_mul.1 hhidden
      have hcons : "\\".toList ++ [c] ++ (parts.flatten ++ quote :: y) =
          '\\' :: c :: (parts.flatten ++ quote :: y) := rfl
      rw [hcons, units_backslash, ih hrest, if_neg (by simpa using hc), List.length_append,
        Nat.add_comm]
      rfl

/-- A string that is not closed begins with no string. -/
theorem not_isPrefix_stringOf {quote : Char} (hquote : quote ≠ '\\') {cs w : List Char}
    (hopen : (units quote cs).2 = false) (hw : quote :: w ∈ Rule.stringOf quote) : ¬w <+: cs := by
  rintro ⟨y, rfl⟩
  obtain ⟨first, ⟨c, -, rfl⟩, rest, hrest, heq⟩ := Language.mem_mul.1 hw
  have heq : c :: rest = quote :: w := heq
  obtain ⟨-, rfl⟩ := List.cons.inj heq
  obtain ⟨u, hu, last, ⟨d, hd, rfl⟩, rfl⟩ := Language.mem_mul.1 hrest
  obtain rfl : d = quote := eq_of_beq hd
  have hclosed := units_of_mem hquote hu y
  rw [List.append_assoc, List.singleton_append, hclosed] at hopen
  cases hopen

/-! ## Attribute groups -/

theorem closeAttribute_inside {q : Char} {depth : Nat} {u : List Char} (hu : Inside q u)
    (hq : q ≠ '\\') (y : List Char) :
    (closeAttribute ⟨depth, some q, false⟩ (u ++ q :: y)).isSome =
      (closeAttribute ⟨depth, none, false⟩ y).isSome := by
  induction hu with
  | nil =>
    have hnext : AttributeState.next ⟨depth, some q, false⟩ q = some ⟨depth, none, false⟩ := by
      simp [AttributeState.next, hq]
    rw [List.nil_append, closeAttribute_cons hnext, Option.isSome_map]
  | @plain c w hc hslash _ ih =>
    have hnext : AttributeState.next ⟨depth, some q, false⟩ c = some ⟨depth, some q, false⟩ := by
      simp [AttributeState.next, hslash, hc]
    rw [List.cons_append, closeAttribute_cons hnext, Option.isSome_map, ih]
  | @escaped c w _ ih =>
    have hfirst : AttributeState.next ⟨depth, some q, false⟩ '\\' = some ⟨depth, some q, true⟩ := rfl
    have hsecond : AttributeState.next ⟨depth, some q, true⟩ c = some ⟨depth, some q, false⟩ := rfl
    rw [List.cons_append, List.cons_append, closeAttribute_cons hfirst, Option.isSome_map,
      closeAttribute_cons hsecond, Option.isSome_map, ih]

/-- Matched brackets do not matter for finding the end of an attribute. -/
theorem closeAttribute_bracketed {w : List Char} (hw : Bracketed w) (depth : Nat) (y : List Char) :
    (closeAttribute ⟨depth + 1, none, false⟩ (w ++ y)).isSome =
      (closeAttribute ⟨depth + 1, none, false⟩ y).isSome := by
  induction hw generalizing depth y with
  | nil => rfl
  | @plain c w hc _ ih =>
    simp only [List.mem_cons, List.not_mem_nil, or_false, not_or] at hc
    have hnext : AttributeState.next ⟨depth + 1, none, false⟩ c = some ⟨depth + 1, none, false⟩ := by
      simp [AttributeState.next, hc]
    rw [List.cons_append, closeAttribute_cons hnext, Option.isSome_map, ih]
  | @quoted q u w hq hu _ ih =>
    have hopen : AttributeState.next ⟨depth + 1, none, false⟩ q = some ⟨depth + 1, some q, false⟩ ∧
        q ≠ '\\' := by
      simp only [List.mem_cons, List.not_mem_nil, or_false] at hq
      rcases hq with rfl | rfl
      · exact ⟨rfl, by decide⟩
      · exact ⟨rfl, by decide⟩
    rw [List.cons_append, closeAttribute_cons hopen.1, Option.isSome_map, List.append_assoc,
      List.cons_append, closeAttribute_inside hu hopen.2, ih]
  | @group u w _ _ ihu ihw =>
    have hopen : AttributeState.next ⟨depth + 1, none, false⟩ '[' =
      some ⟨depth + 2, none, false⟩ := rfl
    have hclose : AttributeState.next ⟨depth + 2, none, false⟩ ']' =
      some ⟨depth + 1, none, false⟩ := rfl
    rw [List.cons_append, closeAttribute_cons hopen, Option.isSome_map, List.append_assoc, ihu,
      List.cons_append, closeAttribute_cons hclose, Option.isSome_map, ihw]

theorem not_isPrefix_bracketed {cs : List Char} (hopen : closeAttribute {} cs = none) {w : List Char}
    (hw : Bracketed w) : ¬w ++ [']'] <+: cs := by
  rintro ⟨y, rfl⟩
  have hclosed := closeAttribute_bracketed hw 0 (']' :: y)
  rw [List.append_assoc, List.singleton_append] at hopen
  have hsome : (closeAttribute ⟨0 + 1, none, false⟩ (']' :: y)).isSome = true := rfl
  rw [hsome] at hclosed
  rw [hopen] at hclosed
  cases hclosed

/-! ## The reason -/

theorem symbolAt_ne_stuck {c : Char} {s : String} (hs : s ∈ symbols) (hc : s.toList = [c])
    (cs : List Char) (k : Nat) : symbolAt c cs ≠ .stuck k := by
  have hfront : s.toList <+: c :: cs := by
    rw [hc]
    exact ⟨cs, rfl⟩
  have hsome : (symbols.find? (·.toList.isPrefixOf (c :: cs))).isSome :=
    List.find?_isSome.2 ⟨s, hs, List.isPrefixOf_iff_prefix.2 hfront⟩
  obtain ⟨s', hs'⟩ := Option.isSome_iff_exists.1 hsome
  rw [symbolAt_of_find? hs']
  exact Found.noConfusion

theorem not_isPrefix_symbol {c : Char} {cs : List Char} {k : Nat} (h : symbolAt c cs = .stuck k)
    {w : List Char} (hw : c :: w ∈ Rule.symbol.language) : ¬w <+: cs := by
  intro hfront
  obtain ⟨s, hs, hw⟩ := hw
  have hsome : (symbols.find? (·.toList.isPrefixOf (c :: cs))).isSome := by
    refine List.find?_isSome.2 ⟨s, hs, List.isPrefixOf_iff_prefix.2 ?_⟩
    rw [← hw]
    exact List.cons_prefix_cons.2 ⟨rfl, hfront⟩
  rw [symbolAt] at h
  split at h
  · cases h
  · rename_i hnone
    rw [hnone] at hsome
    cases hsome

/-- A name cannot stand before a text that begins with none. -/
theorem not_isPrefix_segment {cs w : List Char} (hcs : ∀ d ∈ cs.head?, isNameStart d = false)
    {M : Language Char} (hw : w ∈ Rule.segment * M) : ¬w <+: cs := by
  intro hfront
  obtain ⟨d, u, rfl, hd⟩ := ((Rule.headedBy_one.mul _).mul M) w hw
  obtain ⟨y, rfl⟩ := hfront
  rw [hcs d rfl] at hd
  cases hd

theorem unmatched_quote {quote : Char} (hquote : quote = '\'' ∨ quote = '"') {cs : List Char} {k : Nat}
    (h : quoted quote cs = .stuck k) : Unmatched (quote :: cs) := by
  have hopen : (units quote cs).2 = false := by
    rw [quoted_eq] at h
    split at h
    · cases h
    · rename_i hopen
      exact Bool.not_eq_true _ ▸ hopen
  have hhead {q : Char} {w : List Char} (hw : quote :: w ∈ Rule.stringOf q) : quote = q := by
    obtain ⟨c, u, heq, hc⟩ := Rule.headedBy_one.mul _ _ hw
    rw [(List.cons.inj heq).1]
    exact eq_of_beq hc
  have hslash : quote ≠ '\\' := by
    rcases hquote with rfl | rfl <;> decide
  have honly (r : Rule) (hr : r.starts quote = true) : r = .string := by
    revert hr
    rcases hquote with rfl | rfl <;> cases r <;> decide
  refine unmatched_of_starts fun r hr w hw => ?_
  obtain rfl := honly r hr
  refine not_isPrefix_stringOf hslash hopen ?_
  rcases (Language.mem_add _ _ _).1 hw with hsingle | hdouble
  · obtain rfl := hhead hsingle
    exact hsingle
  · obtain rfl := hhead hdouble
    exact hdouble

theorem isNameStart_eq_false_of_stuck {f : List Char → Found}
    (hf : ∀ d ds, isNameStart d = true → (f (d :: ds)).isStuck = false) {cs : List Char} {k : Nat}
    (h : f cs = .stuck k) : ∀ d ∈ cs.head?, isNameStart d = false := by
  intro d hd
  obtain ⟨ds, rfl⟩ := List.head?_eq_some_iff.1 hd
  rw [← Bool.not_eq_true]
  intro hstart
  have hfound := hf d ds hstart
  rw [h] at hfound
  cases hfound

theorem unmatched_root {cs : List Char} {k : Nat} (h : rootedName cs = .stuck k) :
    Unmatched ('\\' :: cs) := by
  have hcs := isNameStart_eq_false_of_stuck (fun d ds hd => by rw [rootedName, if_pos hd]; rfl) h
  refine unmatched_of_starts fun r hr w hw => ?_
  obtain rfl : r = .name := by cases r <;> first | rfl | exact absurd hr (by decide)
  obtain ⟨a, ha, b, hb, heq⟩ := Language.mem_mul.1 hw
  rcases (Language.mem_add _ _ _).1 ha with ha | ha
  · obtain rfl : a = [] := ha
    obtain ⟨d, u, rfl, hd⟩ := ((Rule.headedBy_one.mul _).mul _) b hb
    obtain ⟨rfl, -⟩ := List.cons.inj heq
    cases hd
  · obtain rfl : a = ['\\'] := ha
    obtain ⟨-, rfl⟩ := List.cons.inj heq
    exact not_isPrefix_segment hcs hb

theorem unmatched_sigil {cs : List Char} {k : Nat} (h : variableName cs = .stuck k) :
    Unmatched ('$' :: cs) := by
  have hcs := isNameStart_eq_false_of_stuck (fun d ds hd => by rw [variableName, if_pos hd]; rfl) h
  refine unmatched_of_starts fun r hr w hw => ?_
  obtain rfl : r = .variableName := by cases r <;> first | rfl | exact absurd hr (by decide)
  obtain ⟨a, ha, b, hb, heq⟩ := Language.mem_mul.1 hw
  obtain rfl : a = ['$'] := ha
  obtain ⟨-, rfl⟩ := List.cons.inj heq
  rw [← mul_one Rule.segment] at hb
  exact not_isPrefix_segment hcs hb

theorem unmatched_symbol {c : Char} (hspace : isSpace c = false) (hname : isNameStart c = false)
    (hdigit : c.isDigit = false) (hother : c ∉ ['\'', '"', '\\', '$', '#']) {cs : List Char} {k : Nat}
    (h : symbolAt c cs = .stuck k) : Unmatched (c :: cs) := by
  have hne {s : String} (hs : s ∈ symbols) (d : Char) (hd : s.toList = [d]) : c ≠ d := by
    rintro rfl
    exact symbolAt_ne_stuck hs hd cs k h
  have hslash := hne (s := "/") (by decide) '/' rfl
  have hless := hne (s := "<") (by decide) '<' rfl
  have hmark := hne (s := "?") (by decide) '?' rfl
  simp only [List.mem_cons, List.not_mem_nil, or_false, not_or] at hother
  obtain ⟨hsingle, hdouble, hroot, hsigil, hhash⟩ := hother
  refine unmatched_of_starts fun r hr w hw => ?_
  obtain rfl : r = .symbol := by
    cases r <;> simp_all [Rule.starts]
  exact not_isPrefix_symbol h hw

theorem blocked_comment {cs : List Char} {k : Nat} (h : blockComment cs = .stuck k) :
    Blocked ('/' :: '*' :: cs) := by
  rw [blockComment] at h
  split at h
  · rename_i hopen
    exact .comment ⟨cs, rfl⟩ (closeComment_eq_none_iff.1 hopen)
  · split at h <;> cases h

theorem blocked_attribute {cs : List Char} {k : Nat} (h : attributeGroup cs = .stuck k) :
    Blocked ('#' :: '[' :: cs) := by
  rw [attributeGroup] at h
  split at h
  · cases h
  · rename_i hopen
    refine .group ⟨cs, rfl⟩ fun w hw hfront => not_isPrefix_bracketed hopen hw ?_
    exact (List.prefix_append_right_inj ['#', '[']).1 (by simpa using hfront)

/-- Where a scan gets stuck a comment or an attribute is not closed, or no rule matches. -/
theorem blocked_of_stuck {c : Char} {cs : List Char} {k : Nat} (h : found c cs = .stuck k) :
    Blocked (c :: cs) := by
  rw [found] at h
  split at h
  case isTrue => cases h
  rename_i hspace
  split at h
  case isTrue => cases h
  rename_i hname
  split at h
  case isTrue =>
    obtain ⟨_, _, heq, -⟩ := exists_number c cs
    cases heq.symm.trans h
  rename_i hdigit
  split at h
  case isTrue hquote => exact .unmatched (unmatched_quote (by simpa using hquote) h)
  rename_i hquote
  split at h
  case isTrue hroot =>
    obtain rfl := eq_of_beq hroot
    exact .unmatched (unmatched_root h)
  rename_i hroot
  split at h
  case isTrue hsigil =>
    obtain rfl := eq_of_beq hsigil
    exact .unmatched (unmatched_sigil h)
  rename_i hsigil
  split at h
  case isTrue hhash =>
    obtain rfl := eq_of_beq hhash
    by_cases hbracket : cs.head? = some '['
    · obtain ⟨rest, rfl⟩ := List.head?_eq_some_iff.1 hbracket
      exact blocked_attribute h
    · rw [afterHash_other hbracket] at h
      cases h
  rename_i hhash
  -- The remaining recognisers fall back on a symbol.
  have symbol (h : symbolAt c cs = .stuck k) : Blocked (c :: cs) := by
    simp only [Bool.not_eq_true, Bool.or_eq_false_iff, beq_eq_false_iff_ne]
      at hspace hname hdigit hquote hroot hsigil hhash
    exact .unmatched (unmatched_symbol hspace hname hdigit (by simp [*]) h)
  have tag {rest : List Char} (h : tagOrSymbol c rest cs = .stuck k) : Blocked (c :: cs) := by
    rw [tagOrSymbol] at h
    split at h
    · cases h
    · exact symbol h
  split at h
  case isTrue hslash =>
    obtain rfl := eq_of_beq hslash
    by_cases hstar : cs.head? = some '*'
    · obtain ⟨rest, rfl⟩ := List.head?_eq_some_iff.1 hstar
      exact blocked_comment h
    · by_cases hline : cs.head? = some '/'
      · obtain ⟨rest, rfl⟩ := List.head?_eq_some_iff.1 hline
        cases h
      · rw [afterSlash_other hstar hline] at h
        exact symbol h
  split at h
  case isTrue hless =>
    obtain rfl := eq_of_beq hless
    exact tag h
  split at h
  case isTrue hmark =>
    obtain rfl := eq_of_beq hmark
    exact tag h
  exact symbol h

/-! ## Where something is found -/

/-- Some rule matches the head of the text. -/
def Matched (text : List Char) : Prop := ∃ r : Rule, ∃ w ∈ r.language, w ≠ [] ∧ w <+: text

theorem not_unmatched {text : List Char} (h : Matched text) : ¬Unmatched text := by
  obtain ⟨r, w, hw, hne, hfront⟩ := h
  exact fun hnone => hnone r w hw hne hfront

theorem one_mem_many₁ {p : Char → Bool} {c : Char} (hc : p c = true) : [c] ∈ Rule.many₁ p :=
  Language.mem_mul.2 ⟨[c], ⟨c, hc, rfl⟩, [], Language.nil_mem_kstar _, rfl⟩

theorem one_mem_segment {c : Char} (hc : isNameStart c = true) : [c] ∈ Rule.segment :=
  Language.mem_mul.2 ⟨[c], ⟨c, hc, rfl⟩, [], Language.nil_mem_kstar _, rfl⟩

theorem one_mem_segments {c : Char} (hc : isNameStart c = true) :
    [c] ∈ Rule.segment * (Rule.exactly "\\" * Rule.segment)∗ :=
  Language.mem_mul.2 ⟨[c], one_mem_segment hc, [], Language.nil_mem_kstar _, rfl⟩

theorem exists_units {quote : Char} {cs : List Char} (h : (units quote cs).2 = true) :
    ∃ u ∈ (Rule.unit quote)∗, u ++ [quote] <+: cs := by
  have cons {part u cs : List Char} (hpart : part ∈ Rule.unit quote) (hu : u ∈ (Rule.unit quote)∗)
      (hfront : u ++ [quote] <+: cs) :
      part ++ u ∈ (Rule.unit quote)∗ ∧ part ++ u ++ [quote] <+: part ++ cs := by
    refine ⟨?_, by simpa using hfront⟩
    obtain ⟨parts, rfl, hparts⟩ := Language.mem_kstar.1 hu
    exact Language.mem_kstar.2 ⟨part :: parts, by simp, List.forall_mem_cons.2 ⟨hpart, hparts⟩⟩
  induction cs using backslashInduction with
  | nil => cases h
  | backslash => cases h
  | hidden c cs ih =>
    rw [units_backslash] at h
    split at h
    · cases h
    · rename_i hc
      obtain ⟨u, hu, hfront⟩ := ih h
      have hhidden : ['\\', c] ∈ Rule.unit quote :=
        .inr (Language.mem_mul.2 ⟨['\\'], rfl, [c], ⟨c, by simpa using hc, rfl⟩, rfl⟩)
      exact ⟨_, cons hhidden hu hfront⟩
  | char c cs hc ih =>
    rw [units_cons hc] at h
    split at h
    · rename_i hquote
      obtain rfl := eq_of_beq hquote
      exact ⟨[], Language.nil_mem_kstar _, ⟨cs, rfl⟩⟩
    · rename_i hquote
      obtain ⟨u, hu, hfront⟩ := ih h
      have hplain : [c] ∈ Rule.unit quote := .inl ⟨c, by simp_all, rfl⟩
      exact ⟨_, cons hplain hu hfront⟩

theorem matched_symbol {c : Char} {cs : List Char} (h : (symbolAt c cs).isStuck = false) :
    Matched (c :: cs) := by
  obtain ⟨k, hk⟩ := symbolAt_eq_token h
  obtain ⟨-, s, hs, hfront, -⟩ := symbolAt_eq_token_iff.1 hk
  exact ⟨.symbol, s.toList, ⟨s, hs, rfl⟩, symbols_ne_nil s hs, hfront⟩

/-- Where something is found, a rule matches. -/
theorem matched_of_found {c : Char} {cs : List Char} (h : (found c cs).isStuck = false) :
    Matched (c :: cs) := by
  have mark (s : String) {d : Char} (hd : s.toList = [d]) (hs : s ∈ symbols) : Matched (d :: cs) :=
    ⟨.symbol, s.toList, ⟨s, hs, rfl⟩, by simp [hd], ⟨cs, by rw [hd]; rfl⟩⟩
  refine found_cases (P := fun r => (r cs).isStuck = false → Matched (c :: cs))
    ?space ?name ?digit ?quote ?root ?sigil ?hash ?slash ?openTag ?closeTag ?symbol h
  case space => exact fun hc _ => ⟨.blanks, [c], one_mem_many₁ hc, by simp, ⟨cs, rfl⟩⟩
  case name =>
    intro hc _
    refine ⟨.name, [c], Language.mem_mul.2 ⟨[], .inl rfl, [c], ?_, rfl⟩, by simp, ⟨cs, rfl⟩⟩
    exact one_mem_segments hc
  case digit => exact fun hc _ => ⟨.int, [c], .inl (one_mem_many₁ hc), by simp, ⟨cs, rfl⟩⟩
  case quote =>
    intro hc h
    obtain ⟨u, hu, hfront⟩ := exists_units (quoted_of_isStuck h).1
    have hstring : c :: (u ++ [c]) ∈ Rule.stringOf c :=
      Language.mem_mul.2 ⟨[c], ⟨c, by simp, rfl⟩, u ++ [c],
        Language.mem_mul.2 ⟨u, hu, [c], ⟨c, by simp, rfl⟩, rfl⟩, rfl⟩
    refine ⟨.string, _, ?_, by simp, List.cons_prefix_cons.2 ⟨rfl, hfront⟩⟩
    rcases hc with rfl | rfl
    · exact .inl hstring
    · exact .inr hstring
  case root =>
    rintro rfl h
    obtain ⟨d, ds, rfl, hd, -⟩ := rootedName_of_isStuck h
    exact ⟨.name, ['\\', d], Language.mem_mul.2 ⟨['\\'], .inr rfl, [d], one_mem_segments hd, rfl⟩,
      by simp, ⟨ds, rfl⟩⟩
  case sigil =>
    rintro rfl h
    obtain ⟨d, ds, rfl, hd, -⟩ := variableName_of_isStuck h
    exact ⟨.variableName, ['$', d], Language.mem_mul.2 ⟨['$'], rfl, [d], one_mem_segment hd, rfl⟩,
      by simp, ⟨ds, rfl⟩⟩
  case hash =>
    rintro rfl -
    exact ⟨.hashComment, ['#'], Language.mem_mul.2 ⟨['#'], rfl, [], .inl rfl, rfl⟩, by simp,
      ⟨cs, rfl⟩⟩
  case slash =>
    rintro rfl -
    exact mark "/" rfl (by decide)
  case openTag =>
    rintro rfl -
    exact mark "<" rfl (by decide)
  case closeTag =>
    rintro rfl -
    exact mark "?" rfl (by decide)
  case symbol => exact matched_symbol

theorem exists_bracketed {cs : List Char} {n : Nat} (h : closeAttribute {} cs = some n) :
    ∃ w, Bracketed w ∧ w ++ [']'] <+: cs := by
  have hlength : (cs.take n).length = n := List.length_take_of_le (closeAttribute_le_length h)
  have htake : closeAttribute {} (cs.take n) = some (cs.take n).length := by
    refine hlength.symm ▸ closeAttribute_of_append (y := cs.drop n) ?_ hlength.ge
    rwa [List.take_append_drop]
  obtain ⟨w, hw, hbracketed⟩ := bracketed_of_closeAttribute htake
  exact ⟨w, hbracketed, hw ▸ List.take_prefix n cs⟩

/-- A scan gets stuck where it does for these reasons only, and for each of them. -/
theorem blocked_iff {c : Char} {cs : List Char} :
    Blocked (c :: cs) ↔ (found c cs).isStuck = true := by
  constructor
  · intro h
    cases h with
    | comment hstart hopen =>
      obtain ⟨rest, hrest⟩ := hstart
      obtain ⟨rfl, rfl⟩ : '/' = c ∧ '*' :: rest = cs := List.cons.inj hrest
      have hnone : closeComment rest = none := closeComment_eq_none_iff.2 hopen
      have hfound : found '/' ('*' :: rest) = blockComment rest := rfl
      rw [hfound, blockComment, hnone]
      rfl
    | group hstart hopen =>
      obtain ⟨rest, hrest⟩ := hstart
      obtain ⟨rfl, rfl⟩ : '#' = c ∧ '[' :: rest = cs := List.cons.inj hrest
      have hfound : found '#' ('[' :: rest) = attributeGroup rest := rfl
      rw [hfound, attributeGroup]
      cases hclose : closeAttribute {} rest with
      | none => rfl
      | some n =>
        obtain ⟨w, hw, hfront⟩ := exists_bracketed hclose
        exact absurd (by simpa using hfront) (hopen w hw)
    | unmatched hnone =>
      rw [← Bool.not_eq_false]
      exact fun hfound => not_unmatched (matched_of_found hfound) hnone
  · intro h
    cases hfound : found c cs with
    | stuck k => exact blocked_of_stuck hfound
    | _ =>
      rw [hfound] at h
      cases h

end CurryGen.Scan

namespace CurryGen

open Scan Text

theorem Text.eq_of_byteLength_eq {u v text : List Char} (hu : u <+: text) (hv : v <+: text)
    (h : byteLength u = byteLength v) : u = v := by
  obtain ⟨y, rfl⟩ := hu
  obtain ⟨z, hz⟩ := hv
  rw [← takeBytes_append u y, ← hz, h, takeBytes_append]

theorem Run.read_eq_ok_iff {path : Path} {text : String} {run : Run} :
    Run.read path text = .ok run ↔ scan text.toList = .ok run := by
  rw [Run.read]
  split <;> simp_all

/-- **What stands after the place of an error, or after a token, plays no part in what is read before
it: the text before the place of an error can be read on its own, and nothing can be found at the
place; and the text through a token has the tokens up to that one.** -/
theorem Run.read_front (path : Path) (text : String) :
    (∀ e, Run.read path text = .error e → ∃ front rest snippet, text.toList = front ++ rest ∧
      e = .unexpectedInput path (.ofOffset text.toList (byteLength front)) snippet ∧
      (∃ run, Run.read path (String.ofList front) = .ok run) ∧
      snippet ≠ "" ∧ snippet.toList <+: rest ∧ Blocked rest) ∧
    ∀ before t after, Run.read path text = .ok (before ++ t :: after) →
      (∃ front, front <+: text.toList ∧ byteLength front = t.stop) ∧
      ∀ front, front <+: text.toList → byteLength front = t.stop →
        Run.read path (String.ofList front) = .ok (before ++ [t]) := by
  constructor
  · intro e he
    rw [Run.read] at he
    split at he
    · rename_i stuck hscan
      cases he
      obtain ⟨front, c, cs, k, run, htext, hpasses, hstuck, rfl⟩ := exists_passes_stuck hscan
      refine ⟨front, c :: cs, String.ofList (c :: cs.take k), htext, ?_, ⟨run, ?_⟩, by simp,
        ?_, blocked_of_stuck hstuck⟩
      · rw [Nat.zero_add]
      · rw [Run.read_eq_ok_iff, String.toList_ofList]
        exact hpasses.scanFrom
      · rw [String.toList_ofList]
        exact List.cons_prefix_cons.2 ⟨rfl, List.take_prefix k cs⟩
    · cases he
  · intro before t after hread
    obtain ⟨front, rest, htext, hstop, hpasses, -⟩ :=
      exists_passes_through (Run.read_eq_ok_iff.1 hread) before t after rfl
    rw [Nat.zero_add] at hstop
    have hfront : front <+: text.toList := ⟨rest, htext.symm⟩
    refine ⟨⟨front, hfront, hstop.symm⟩, fun u hu hlength => ?_⟩
    rw [eq_of_byteLength_eq hu hfront (hlength.trans hstop), Run.read_eq_ok_iff, String.toList_ofList]
    exact hpasses.scanFrom

example : Run.read ⟨"a.php"⟩ "$x\n  /* y" = .error (.unexpectedInput ⟨"a.php"⟩ ⟨2, 3⟩ "/*") := by cbv

end CurryGen

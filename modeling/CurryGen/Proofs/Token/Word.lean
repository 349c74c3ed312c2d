import CurryGen.Proofs.Token.Reading

/-!
# Words, numbers and brackets

The tokens that generated code is written with, and what may follow them.

* `stands_alone`: a symbol that begins no longer one stands before anything, as brackets and
  separators do.
* `stands_identifier`, `stands_toString`: identifiers and counts are one token each.
-/

namespace CurryGen.Scan

/-- Symbols that begin no longer symbol. -/
def solitary : List String := ["(", ")", "\x7b", "\x7d", ",", ";", "::"]

theorem eq_of_solitary_isPrefix :
    ∀ s ∈ solitary, ∀ s' ∈ marks ++ symbols, s.toList <+: s'.toList → s' = s := by
  decide

theorem found_solitary : ∀ s ∈ solitary, ∃ c w, s.toList = c :: w ∧
    found c (w ++ []) = .token .symbol w.length := by
  intro s hs
  simp only [solitary, List.mem_cons, List.not_mem_nil, or_false] at hs
  rcases hs with rfl | rfl | rfl | rfl | rfl | rfl | rfl
  · exact ⟨'(', [], rfl, by decide⟩
  · exact ⟨')', [], rfl, by decide⟩
  · exact ⟨'\x7b', [], rfl, by decide⟩
  · exact ⟨'\x7d', [], rfl, by decide⟩
  · exact ⟨',', [], rfl, by decide⟩
  · exact ⟨';', [], rfl, by decide⟩
  · exact ⟨':', [':'], rfl, by decide⟩

/-- A symbol that begins no longer one, nor a comment or a tag, stands before anything. -/
theorem stands_alone {s : String} (halone : Stands (.symbol s) [])
    (h : ∀ s' ∈ marks ++ symbols, s.toList <+: s'.toList → s' = s) (y : List Char) :
    Stands (.symbol s) y := by
  rw [halone.append_symbol_iff rfl]
  intro s' hs' hfront
  rcases Nat.lt_or_ge s.toList.length s'.toList.length with hlt | hle
  · have hlong : s.toList <+: s'.toList :=
      List.prefix_of_prefix_length_le (List.prefix_append s.toList y) hfront (Nat.le_of_lt hlt)
    rw [h s' hs' hlong]
    exact Nat.le_refl _
  · exact hle

theorem stands_solitary {s : String} (hs : s ∈ solitary) (y : List Char) :
    Stands (.symbol s) y :=
  stands_alone (found_solitary s hs) (eq_of_solitary_isPrefix s hs) y

theorem scans_symbol {s : String} (hs : s ∈ solitary) {y : List Char} {us : List Token}
    (hy : Scans y us) : Scans (s.toList ++ y) (.symbol s :: us) :=
  (stands_solitary hs y).scans hy

theorem scans_solitary {s : String} (hs : s ∈ solitary) : Scans s.toList [.symbol s] := by
  have hscans := scans_symbol hs .nil
  rwa [List.append_nil] at hscans

/-- A word or a number before a character that cannot belong to it. -/
theorem Stands.scans_before {t : Token} (ht : Stands t []) (hkind : t.kind ≠ .symbol) {d : Char}
    (hd : isStop d = true) {y : List Char} {us : List Token} (hy : Scans (d :: y) us) :
    Scans (t.text.toList ++ d :: y) (t :: us) :=
  (ht.append_stop hkind hd y).scans hy

theorem stands_bracket (y : List Char) : Stands (.symbol "[") y :=
  stands_alone ⟨'[', [], rfl, by decide⟩ (by decide) y

theorem stands_closeBracket (y : List Char) : Stands (.symbol "]") y :=
  stands_alone ⟨']', [], rfl, by decide⟩ (by decide) y

/-- What a name and a variable begin with. -/
def Begins : Token.Kind → Char → Prop
  | .name, c => isNameStart c = true ∨ c = '\\'
  | .variable, c => c = '$'
  | _, _ => True

theorem begins_of_found {c : Char} {cs : List Char} {kind : Token.Kind} {k : Nat}
    (h : found c cs = .token kind k) : Begins kind c := by
  cases tokenAt_of_found h with
  | name hc => exact .inl hc
  | rootedName hc => exact .inr hc
  | variableName hc => exact hc
  | number _ _ hkind => rcases hkind with rfl | rfl <;> trivial
  | string | doc | symbol => trivial

theorem Stands.begins {t : Token} {y : List Char} (h : Stands t y) :
    ∃ c w, t.text.toList = c :: w ∧ Begins t.kind c := by
  obtain ⟨c, w, htext, hfound⟩ := h
  exact ⟨c, w, htext, begins_of_found hfound⟩

/-- A variable is its name after a `$`. -/
theorem Stands.text_of_variableName? {t : Token} {y : List Char} (h : Stands t y) {name : String}
    (hname : t.variableName? = some name) : t.kind = .variable ∧ t.text = "$" ++ name := by
  obtain ⟨hkind, rfl⟩ := Token.variableName?_eq_some_iff.1 hname
  obtain ⟨c, w, htext, hc⟩ := h.begins
  rw [hkind] at hc
  obtain rfl : c = '$' := hc
  refine ⟨hkind, ?_⟩
  rw [← String.toList_inj, String.toList_append, String.toList_ofList, htext]
  simp

/-- Whether a text is an identifier: a letter or an underscore, and then digits too. -/
def isIdentifier (s : String) : Bool :=
  s.toList.head?.any isNameStart && s.toList.tail.all isNameChar

theorem isSpace_eq_false_of_isNameChar {c : Char} (h : isNameChar c = true) : isSpace c = false := by
  rw [← Bool.not_eq_true]
  intro hspace
  simp only [isSpace, Bool.or_eq_true, beq_iff_eq] at hspace
  rcases hspace with (((rfl | rfl) | rfl) | rfl) | rfl <;> exact absurd h (by decide)

theorem nameTail_eq_length {w : List Char} (h : ∀ d ∈ w, isNameChar d = true) :
    nameTail w = w.length := by
  induction w with
  | nil => rfl
  | cons d w ih =>
    obtain ⟨hd, hw⟩ := List.forall_mem_cons.1 h
    have hslash : d ≠ '\\' := by
      rintro rfl
      rw [isNameChar_backslash] at hd
      cases hd
    rw [nameTail_cons hslash, if_pos hd, ih hw, List.length_cons]

theorem stands_identifier {s : String} (h : isIdentifier s = true) : Stands ⟨.name, s⟩ [] := by
  obtain ⟨hstart, htail⟩ := Bool.and_eq_true_iff.1 h
  obtain ⟨c, hc, hstart⟩ := (Option.any_eq_true _ _).1 hstart
  obtain ⟨w, hw⟩ := List.head?_eq_some_iff.1 hc
  rw [hw, List.tail_cons, List.all_eq_true] at htail
  refine ⟨c, w, hw, ?_⟩
  have hspace := isSpace_eq_false_of_isNameChar (isNameChar_of_isNameStart hstart)
  rw [List.append_nil, found, if_neg (by simp [hspace]), if_pos hstart, plainName,
    nameTail_eq_length htail]

theorem number_digits (c : Char) {w : List Char} (h : ∀ d ∈ w, d.isDigit = true) :
    number c w = .token .int w.length := by
  rw [number_eq, count_eq_length_iff.2 h, List.drop_length, if_neg (by decide)]
  split
  · rename_i hzero
    obtain rfl : w = [] := by simpa using (Bool.and_eq_true_iff.1 hzero).2
    rfl
  · rfl

theorem isNameStart_of_isDigit {c : Char} (h : c.isDigit = true) : isNameStart c = false := by
  rw [← Bool.not_eq_true]
  intro hstart
  rw [Char.isDigit_iff_toNat] at h
  have hlast : c.toNat ≤ 57 := h.2
  rw [isNameStart, Bool.or_eq_true, isAlpha_iff, beq_iff_eq] at hstart
  rcases hstart with hstart | rfl
  · omega
  · exact absurd hlast (by decide)

theorem stands_toString (n : Nat) : Stands ⟨.int, toString n⟩ [] := by
  have htext : (toString n).toList = Nat.toDigits 10 n := Nat.toList_repr
  obtain ⟨c, w, hdigits⟩ := List.exists_cons_of_ne_nil (@Nat.toDigits_ne_nil n 10)
  have hall : ∀ d ∈ c :: w, d.isDigit = true := by
    rw [← hdigits]
    exact fun d hd => Nat.isDigit_of_mem_toDigits (by decide) (by decide) hd
  obtain ⟨hc, hw⟩ := List.forall_mem_cons.1 hall
  refine ⟨c, w, htext.trans hdigits, ?_⟩
  have hspace := isSpace_eq_false_of_isNameChar (isNameChar_of_isDigit hc)
  rw [List.append_nil, found, if_neg (by simp [hspace]),
    if_neg (by simp [isNameStart_of_isDigit hc]), if_pos hc, number_digits c hw]

end CurryGen.Scan

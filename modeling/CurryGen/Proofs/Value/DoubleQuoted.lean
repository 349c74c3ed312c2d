import CurryGen.Proofs.Value.RoundTrip

/-!
# Text between double quotes

A text is written between double quotes with a backslash in front of what would not denote itself
there. It is always one token, and this module says when the token is read as the text.

* `doubleQuoted`: the text between double quotes.
* `unescape_doubleEscaped`: the escapes are undone.
* `scan_doubleQuoted`: the quoted text is one token.
* `readExpr_doubleQuoted_iff`: it is read as the text unless that has a dollar sign.
-/

namespace CurryGen

open Scan

/-! ## Escapes -/

/-- A character between double quotes. -/
def doubleEscaped (c : Char) : List Char :=
  match c with
  | '\\' => ['\\', '\\']
  | '"' => ['\\', '"']
  | '$' => ['\\', '$']
  | '\n' => ['\\', 'n']
  | '\t' => ['\\', 't']
  | '\r' => ['\\', 'r']
  | c => [c]

/-- A text between double quotes. -/
def doubleQuoted (s : String) : String :=
  String.ofList ('"' :: (s.toList.flatMap doubleEscaped ++ ['"']))

/-- A character is written after a backslash, and then read back, or it is written as it is. -/
theorem doubleEscaped_cases (c : Char) :
    (∃ d, doubleEscaped c = ['\\', d] ∧ d ≠ '\n' ∧
        ∀ cs, Literal.unescape '"' ('\\' :: d :: cs) = c :: Literal.unescape '"' cs) ∨
      c ≠ '\\' ∧ c ≠ '"' ∧ doubleEscaped c = [c] := by
  unfold doubleEscaped
  split
  case h_7 hslash hquote _ _ _ _ => exact .inr ⟨hslash, hquote, rfl⟩
  all_goals exact .inl ⟨_, rfl, by decide, fun _ => rfl⟩

theorem dollar_mem_doubleEscaped {c : Char} : '$' ∈ doubleEscaped c ↔ c = '$' := by
  unfold doubleEscaped
  split <;> simp_all [eq_comm]

theorem dollar_mem_flatMap {cs : List Char} : '$' ∈ cs.flatMap doubleEscaped ↔ '$' ∈ cs := by
  simp [List.mem_flatMap, dollar_mem_doubleEscaped]

theorem unescape_doubleEscaped (cs : List Char) :
    Literal.unescape '"' (cs.flatMap doubleEscaped) = cs := by
  induction cs with
  | nil => rfl
  | cons c cs ih =>
    rw [List.flatMap_cons]
    rcases doubleEscaped_cases c with ⟨d, hescaped, -, hundone⟩ | ⟨hslash, -, hescaped⟩
    · rw [hescaped, List.cons_append, List.singleton_append, hundone, ih]
    · rw [hescaped, List.singleton_append, Literal.unescape_cons hslash, ih]

theorem unquote?_doubleQuoted (s : String) : Literal.unquote? (doubleQuoted s).toList =
    if '$' ∈ s.toList then none else some s.toList := by
  rw [doubleQuoted, String.toList_ofList, Literal.unquote?]
  simp only [List.dropLast_concat, beq_self_eq_true, Bool.true_and, List.contains_iff_mem,
    dollar_mem_flatMap, unescape_doubleEscaped]

/-! ## The token -/

theorem units_doubleEscaped (cs y : List Char) :
    units '"' (cs.flatMap doubleEscaped ++ '"' :: y) = ((cs.flatMap doubleEscaped).length, true) := by
  induction cs with
  | nil => rfl
  | cons c cs ih =>
    rw [List.flatMap_cons]
    rcases doubleEscaped_cases c with ⟨d, hescaped, hd, -⟩ | ⟨hslash, hquote, hescaped⟩
    · rw [hescaped, List.cons_append, List.cons_append, List.cons_append, List.cons_append,
        List.nil_append, units_backslash, ih, if_neg (by simpa using hd)]
      rfl
    · rw [hescaped, List.singleton_append, List.cons_append, units_cons hslash, ih]
      simp [hquote]

theorem stands_doubleQuoted (s : String) : Stands ⟨.string, doubleQuoted s⟩ [] := by
  refine ⟨'"', s.toList.flatMap doubleEscaped ++ ['"'], String.toList_ofList, ?_⟩
  have hfound (cs : List Char) : found '"' cs = quoted '"' cs := rfl
  rw [List.append_nil, hfound, quoted_eq, units_doubleEscaped, if_pos rfl, List.length_append]
  rfl

/-- A token that stands alone is all that is found in its text. -/
theorem Scan.Stands.scan_eq {t : Token} (h : Stands t []) : scan t.text.toList = .ok [⟨t, 0⟩] := by
  obtain ⟨c, w, htext, hfound⟩ := h
  have hnil : scanFrom (0 + Text.byteLength (c :: w)) [] = .ok [] := by rw [scanFrom]
  have hscan := scanFrom_token hfound hnil
  rw [List.append_nil, ← htext, String.ofList_toList] at hscan
  exact hscan

/-- **A text between double quotes is one token, and the token is read as the text, which has a literal
form, if and only if there is no dollar sign in it.** -/
theorem readExpr_doubleQuoted_iff (s : String) :
    scan (doubleQuoted s).toList = .ok [⟨⟨.string, doubleQuoted s⟩, 0⟩] ∧
    ∀ (source : List Char) (i : Nat) (env : Bindings),
      (readExpr source [⟨⟨.string, doubleQuoted s⟩, i⟩] = .literal (.string s) (doubleQuoted s) ↔
        '$' ∉ s.toList) ∧
      (((readExpr source [⟨⟨.string, doubleQuoted s⟩, i⟩]).eval env).isPrintable = true ↔
        '$' ∉ s.toList) := by
  refine ⟨(stands_doubleQuoted s).scan_eq, fun source i env => ?_⟩
  rw [readExpr_single (.inr rfl), Literal.ofToken?]
  simp only [unquote?_doubleQuoted]
  by_cases hdollar : '$' ∈ s.toList
  · rw [if_pos hdollar]
    have hread : Expr.literalOrRaw none (doubleQuoted s) [⟨.string, doubleQuoted s⟩] =
        .raw [⟨.string, doubleQuoted s⟩] := rfl
    rw [Option.map_none, hread]
    simp [hdollar, Expr.eval, Value.isPrintable]
  · rw [if_neg hdollar, Option.map_some, String.ofList_toList]
    have hread : Expr.literalOrRaw (some (.string s)) (doubleQuoted s) [⟨.string, doubleQuoted s⟩] =
        .literal (.string s) (doubleQuoted s) := rfl
    rw [hread]
    simp [hdollar, Expr.eval, Literal.toValue, Value.isPrintable]

end CurryGen

import CurryGen.Proofs.Token.Written
import CurryGen.Proofs.Tree.Wrapped
import CurryGen.Value.Evaluate

/-!
# Integers and strings as literals

The texts that integers and strings are written as: which tokens they are, and what these denote.

* `Number.ofCanonical?_eq_some_iff`: the canonical texts are those that integers are written as.
* `Number.covers_toString`: an integer is a number, perhaps after a minus.
* `stands_quote`, `unquote?_quote`: a quoted string is one token, and its value is the string.
-/

namespace CurryGen

open Scan Token

/-! ## Integers -/

namespace Number

theorem toList_toString (n : Int) : (toString n).toList =
    if n < 0 then '-' :: (toString n.natAbs).toList else (toString n.natAbs).toList := by
  cases n with
  | ofNat m => rfl
  | negSucc m =>
    have hneg : Int.negSucc m < 0 := Int.negSucc_lt_zero m
    rw [if_pos hneg]
    exact String.toList_append (s := "-")

theorem ofDigits_toString (n : Nat) : ofDigits 10 (toString n).toList = n := by
  have htext : (toString n).toList = Nat.toDigits 10 n := Nat.toList_repr
  rw [htext, ofDigits_toDigits]

/-- The canonical texts are those that integers are written as. -/
theorem ofCanonical?_eq_some_iff {s : String} {n : Int} :
    ofCanonical? s = some n ↔ minInt ≤ n ∧ n ≤ maxInt ∧ s = toString n := by
  unfold ofCanonical?
  extract_lets value
  constructor
  · intro h
    split at h
    · rename_i hvalue
      obtain rfl := Option.some.inj h
      exact ⟨hvalue.1, hvalue.2.1, hvalue.2.2.symm⟩
    · cases h
  · rintro ⟨hmin, hmax, rfl⟩
    have hvalue : value = n := by
      unfold value
      rw [toList_toString]
      split
      · rename_i hneg
        split at hneg
        · rename_i hlt
          obtain rfl := (List.cons.inj hneg).2
          rw [ofDigits_toString]
          omega
        · have hdigit : ('-' : Char).isDigit = true := by
            refine Nat.isDigit_of_mem_toDigits (b := 10) (n := n.natAbs) (by decide) (by decide) ?_
            rw [← Nat.toList_repr]
            exact hneg ▸ List.mem_cons_self
          exact absurd hdigit (by decide)
      · rename_i hminus
        split
        · rename_i hlt
          rw [if_pos hlt] at hminus
          exact absurd rfl (hminus _)
        · rw [ofDigits_toString]
          omega
    rw [hvalue, if_pos ⟨hmin, hmax, rfl⟩]

/-- The tokens of an integer. -/
def tokens (n : Int) : List Token :=
  if n < 0 then [.symbol "-", ⟨.int, toString n.natAbs⟩] else [⟨.int, toString n.natAbs⟩]

theorem isDigit_eq_false_of_mem_symbols :
    ∀ s ∈ marks ++ symbols, s.toList.all (!·.isDigit) = true := by
  decide

/-- A minus stands before a digit. -/
theorem stands_minus {d : Char} (hd : d.isDigit = true) (y : List Char) :
    Stands (.symbol "-") (d :: y) := by
  have halone : Stands (.symbol "-") [] := ⟨'-', [], rfl, by decide⟩
  rw [halone.append_symbol_iff rfl]
  intro s hs hfront
  by_contra hlong
  -- a longer symbol would hold the digit
  have hmem : d ∈ s.toList := by
    obtain ⟨rest, hrest⟩ := hfront
    match hchars : s.toList, hrest, hlong with
    | [], _, hlong => simp at hlong
    | [_], _, hlong => exact absurd (Nat.le_refl 1) hlong
    | _ :: c :: _, hrest, _ =>
      obtain rfl : c = d := (List.cons.inj (List.cons.inj hrest).2).1
      simp
  have hno := List.all_eq_true.1 (isDigit_eq_false_of_mem_symbols s hs) d hmem
  rw [hd] at hno
  cases hno

theorem covers_toString (n : Int) : Covers (toString n).toList (tokens n) := by
  have hnat := (stands_toString n.natAbs).covers
  have htext : (toString n.natAbs).toList = Nat.toDigits 10 n.natAbs := Nat.toList_repr
  rw [toList_toString, tokens]
  split
  · obtain ⟨d, ds, hdigits⟩ := List.exists_cons_of_ne_nil (@Nat.toDigits_ne_nil n.natAbs 10)
    have hd : d.isDigit = true := Nat.isDigit_of_mem_toDigits (b := 10) (n := n.natAbs) (by decide)
      (by decide) (hdigits ▸ List.mem_cons_self)
    rw [htext, hdigits] at hnat ⊢
    exact (stands_minus hd ds).covers_append hnat
  · exact hnat

end Number

/-! ## Strings -/

/-- A character between single quotes. -/
def escaped (c : Char) : List Char := if c == '\\' || c == '\'' then ['\\', c] else [c]

theorem toList_quote (s : String) :
    (quote s).toList = '\'' :: (s.toList.flatMap escaped ++ ['\'']) := by
  simp only [quote, String.toList_append, String.toList_ofList]
  rfl

theorem escaped_cases (c : Char) :
    (c = '\\' ∨ c = '\'') ∧ escaped c = ['\\', c] ∨ c ≠ '\\' ∧ c ≠ '\'' ∧ escaped c = [c] := by
  unfold escaped
  by_cases hslash : c = '\\'
  · simp [hslash]
  · by_cases hquote : c = '\''
    · simp [hquote]
    · simp [hslash, hquote]

theorem Literal.unescape_cons {quote c : Char} (hc : c ≠ '\\') (cs : List Char) :
    unescape quote (c :: cs) = c :: unescape quote cs := by
  cases cs <;> simp [unescape, hc]

/-- Escaping is undone. -/
theorem Literal.unescape_escaped (cs : List Char) :
    unescape '\'' (cs.flatMap escaped) = cs := by
  induction cs with
  | nil => rfl
  | cons c cs ih =>
    rw [List.flatMap_cons]
    rcases escaped_cases c with ⟨hc, hescaped⟩ | ⟨hslash, -, hescaped⟩
    · rw [hescaped]
      rcases hc with rfl | rfl <;> simp [unescape, ih]
    · rw [hescaped, List.singleton_append, unescape_cons hslash, ih]

theorem units_escaped (cs y : List Char) :
    units '\'' (cs.flatMap escaped ++ '\'' :: y) = ((cs.flatMap escaped).length, true) := by
  induction cs with
  | nil => rfl
  | cons c cs ih =>
    rw [List.flatMap_cons]
    rcases escaped_cases c with ⟨hc, hescaped⟩ | ⟨hslash, hquote, hescaped⟩
    · have hnewline : (c == '\n') = false := by rcases hc with rfl | rfl <;> rfl
      rw [hescaped, List.cons_append, List.cons_append, List.cons_append, List.cons_append,
        List.nil_append, units_backslash, ih, hnewline]
      rfl
    · rw [hescaped, List.singleton_append, List.cons_append, units_cons hslash, ih]
      simp [hquote]

theorem stands_quote (s : String) : Stands ⟨.string, quote s⟩ [] := by
  refine ⟨'\'', s.toList.flatMap escaped ++ ['\''], toList_quote s, ?_⟩
  have hfound (cs : List Char) : found '\'' cs = quoted '\'' cs := rfl
  rw [List.append_nil, hfound, quoted_eq, units_escaped, if_pos rfl, List.length_append]
  rfl

theorem unquote?_quote (s : String) : Literal.unquote? (quote s).toList = some s.toList := by
  rw [toList_quote]
  simp [Literal.unquote?, Literal.unescape_escaped]

end CurryGen

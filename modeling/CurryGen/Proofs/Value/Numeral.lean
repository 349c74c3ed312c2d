import CurryGen.Proofs.Value.Scalar

/-!
# Integer literals

PHP reads the digits of an integer in a base that its first characters tell: octal after a `0`,
hexadecimal after `0x` or `0X`, and decimal otherwise. This module compares that with the value that an
integer has here, and with what the text of the value denotes.

* `Numeral.integer?`: the integer that a text denotes in PHP.
* `Numeral.integer?_toString`: it is the integer again for the text of an integer.
* `Numeral.ofDigits_eq_iff`: which digits denote the same in base 8 and in base 10.
* `numeral_of_found`: the texts of integers.
* `readExpr_numeral_iff`: when the value of a literal denotes what the literal does.
-/

namespace CurryGen

open Scan Token

namespace Numeral

/-! ## Integers in PHP -/

def isOctalDigit (c : Char) : Bool := '0' ≤ c && c ≤ '7'

/-- The integer that PHP reads from a text without sign. After a leading zero all digits must be octal
ones. -/
def magnitude? : List Char → Option Nat
  | '0' :: 'x' :: cs | '0' :: 'X' :: cs => some (Number.ofDigits 16 cs)
  | '0' :: cs => if cs.all isOctalDigit then some (Number.ofDigits 8 cs) else none
  | cs => some (Number.ofDigits 10 cs)

/-- The integer that PHP reads from a text, perhaps after a minus. -/
def integer? : List Char → Option Int
  | '-' :: cs => (magnitude? cs).map fun (n : Nat) => -(n : Int)
  | cs => (magnitude? cs).map Int.ofNat

/-- Whether a text is a leading zero and more digits. -/
def isOctal : List Char → Bool
  | '0' :: c :: _ => c.isDigit
  | _ => false

/-- The text of an integer literal: decimal digits, or hexadecimal ones after their mark. -/
inductive IsNumeral : List Char → Prop
  | decimal {ds : List Char} : Number.isDecimal ds = true → IsNumeral ds
  | hex {mark : Char} {ds : List Char} : isHexMark mark = true → IsNumeral ('0' :: mark :: ds)

/-! ## Digits in two bases -/

theorem ofDigits_concat (base : Nat) (cs : List Char) (c : Char) :
    Number.ofDigits base (cs ++ [c]) =
      base * Number.ofDigits base cs + (Number.digitValue? c).getD 0 := by
  rw [Number.ofDigits, List.foldl_append]
  rfl

theorem isOctalDigit_iff {c : Char} (h : c.isDigit = true) :
    isOctalDigit c = true ↔ (Number.digitValue? c).getD 0 < 8 := by
  have hrange : '0'.toNat ≤ c.toNat ∧ c.toNat ≤ '9'.toNat := by
    simpa [Char.isDigit, Char.le_def, UInt32.le_iff_toNat_le] using h
  have hoctal : isOctalDigit c = true ↔ '0'.toNat ≤ c.toNat ∧ c.toNat ≤ '7'.toNat := by
    simp [isOctalDigit, Char.le_def, UInt32.le_iff_toNat_le]
  have hvalue : (Number.digitValue? c).getD 0 = c.toNat - '0'.toNat := by
    rw [Number.digitValue?_of_isDigit h, Option.getD_some]
  have hzero : '0'.toNat = 48 := rfl
  have hseven : '7'.toNat = 55 := rfl
  rw [hoctal, hvalue]
  omega

theorem ofDigits_le (cs : List Char) : Number.ofDigits 8 cs ≤ Number.ofDigits 10 cs := by
  induction cs using List.reverseRecOn with
  | nil => exact Nat.le_refl _
  | append_singleton cs c ih =>
    rw [ofDigits_concat, ofDigits_concat]
    omega

/-- Digits denote the same in base 8 and in base 10 only below 8. -/
theorem ofDigits_eq_iff {cs : List Char} (h : ∀ c ∈ cs, c.isDigit = true) :
    (∀ c ∈ cs, isOctalDigit c = true) ∧ Number.ofDigits 8 cs = Number.ofDigits 10 cs ↔
      Number.ofDigits 10 cs < 8 := by
  induction cs using List.reverseRecOn with
  | nil => simp [Number.ofDigits]
  | append_singleton cs c ih =>
    rw [List.forall_mem_append, List.forall_mem_singleton] at h ⊢
    have ih := ih h.1
    have hle := ofDigits_le cs
    rw [ofDigits_concat, ofDigits_concat, isOctalDigit_iff h.2]
    constructor
    · rintro ⟨⟨hall, hlast⟩, heq⟩
      omega
    · intro hlt
      obtain ⟨hall, heq⟩ := ih.2 (by omega)
      exact ⟨⟨hall, by omega⟩, by omega⟩

/-! ## Texts of integers -/

theorem magnitude?_hex {mark : Char} (h : isHexMark mark = true) (ds : List Char) :
    magnitude? ('0' :: mark :: ds) = some (Number.ofDigits 16 ds) := by
  rcases Bool.or_eq_true_iff.1 h with h | h <;> rw [eq_of_beq h] <;> rfl

theorem ofLiteral?_hex {mark : Char} (h : isHexMark mark = true) (ds : List Char) :
    Number.ofLiteral? ('0' :: mark :: ds) =
      if (Number.ofDigits 16 ds : Int) ≤ Number.maxInt then some (Number.ofDigits 16 ds : Int)
      else none := by
  rcases Bool.or_eq_true_iff.1 h with h | h <;> rw [eq_of_beq h] <;> rfl

theorem magnitude?_octal {w : List Char} (h : ∀ d ∈ w, d.isDigit = true) :
    magnitude? ('0' :: w) = if w.all isOctalDigit then some (Number.ofDigits 8 w) else none := by
  cases w with
  | nil => rfl
  | cons d w =>
    have hd := h d List.mem_cons_self
    rw [magnitude?]
    · rintro cs heq
      obtain ⟨rfl, -⟩ := List.cons.inj heq
      cases hd
    · rintro cs heq
      obtain ⟨rfl, -⟩ := List.cons.inj heq
      cases hd

theorem magnitude?_decimal {c : Char} (hc : c ≠ '0') (w : List Char) :
    magnitude? (c :: w) = some (Number.ofDigits 10 (c :: w)) := by
  rw [magnitude?] <;> intros <;> simp_all

theorem isOctal_eq_false {c : Char} (hc : c ≠ '0') (w : List Char) : isOctal (c :: w) = false := by
  rw [isOctal]
  intros
  simp_all

/-- An integer has a value here, which is no less than what it denotes in PHP. The two are equal unless
the digits after a leading zero make 8 or more. -/
theorem IsNumeral.exists_value {text : List Char} (h : IsNumeral text) :
    ∃ v : Nat, Number.ofLiteral? text = (if (v : Int) ≤ Number.maxInt then some (v : Int) else none) ∧
      (magnitude? text = some v ↔ ¬(isOctal text = true ∧ 8 ≤ Number.ofDigits 10 text)) ∧
      ∀ m, magnitude? text = some m → m ≤ v := by
  cases h with
  | @hex mark ds hmark =>
    have hoctal : isOctal ('0' :: mark :: ds) = false := by
      rcases Bool.or_eq_true_iff.1 hmark with h | h <;> rw [eq_of_beq h] <;> rfl
    refine ⟨Number.ofDigits 16 ds, ofLiteral?_hex hmark ds, ?_, ?_⟩
    · simp [magnitude?_hex hmark, hoctal]
    · intro m hm
      rw [magnitude?_hex hmark] at hm
      exact (Option.some.inj hm).ge
  | decimal hdecimal =>
    obtain ⟨hne, hdigits⟩ := Number.isDecimal_iff.1 hdecimal
    obtain ⟨c, w, rfl⟩ := List.exists_cons_of_ne_nil hne
    refine ⟨Number.ofDigits 10 (c :: w), Number.ofLiteral?_digits hdigits, ?_⟩
    by_cases hc : c = '0'
    · subst hc
      obtain ⟨-, hw⟩ := List.forall_mem_cons.1 hdigits
      have hzero : Number.ofDigits 10 ('0' :: w) = Number.ofDigits 10 w := rfl
      have heq := ofDigits_eq_iff hw
      have hle := ofDigits_le w
      rw [magnitude?_octal hw, hzero]
      constructor
      · cases w with
        | nil => simp [isOctal, Number.ofDigits]
        | cons d w =>
          have hoctal : isOctal ('0' :: d :: w) = true := hw d List.mem_cons_self
          rw [hoctal]
          rw [← List.all_eq_true] at heq
          split
          · rename_i hall
            simp only [hall, true_and] at heq
            simp [heq]
          · rename_i hall
            simp only [hall, Bool.false_eq_true, false_and, false_iff, not_lt] at heq
            simp [heq]
      · intro m hm
        split at hm
        · exact Option.some.inj hm ▸ hle
        · cases hm
    · rw [magnitude?_decimal hc, isOctal_eq_false hc]
      simp

theorem isNumeral_of_number {c : Char} (hc : c.isDigit = true) {w : List Char}
    (h : number c w = .token .int w.length) : IsNumeral (c :: w) := by
  rw [number_eq] at h
  split at h
  · cases h
  · split at h
    · rename_i hzero
      obtain rfl : c = '0' := eq_of_beq (Bool.and_eq_true_iff.1 hzero).1
      have htail : hexTail w = w.length := (Found.token.inj h).2
      cases w with
      | nil => exact .decimal rfl
      | cons mark ds =>
        cases hmark : isHexMark mark with
        | true => exact .hex hmark
        | false =>
          rw [hexTail_other hmark] at htail
          cases htail
    · have hcount : count Char.isDigit w = w.length := (Found.token.inj h).2
      exact .decimal (Number.isDecimal_iff.2
        ⟨List.cons_ne_nil c w, List.forall_mem_cons.2 ⟨hc, count_eq_length_iff.1 hcount⟩⟩)

theorem isNumeral_of_found {c : Char} {w : List Char} (h : found c w = .token .int w.length) :
    IsNumeral (c :: w) := by
  cases tokenAt_of_found h with
  | number hc hw _ => exact isNumeral_of_number hc hw

/-! ## Texts of values -/

theorem head?_toDigits {n : Nat} (h : 0 < n) : (Nat.toDigits 10 n).head? ≠ some '0' := by
  induction n using Nat.strongRecOn with
  | ind n ih =>
    by_cases hlt : n < 10
    · have hdigits : ∀ k < 10, 0 < k → Nat.digitChar k ≠ '0' := by decide
      rw [Nat.toDigits_of_lt_base hlt, List.head?_cons]
      exact fun heq => hdigits n hlt h (Option.some.inj heq)
    · rw [Nat.toDigits_of_base_le (by decide) (by omega),
        List.head?_append_of_ne_nil _ Nat.toDigits_ne_nil]
      exact ih (n / 10) (by omega) (by omega)

theorem magnitude?_toString (n : Nat) : magnitude? (toString n).toList = some n := by
  have htext : (toString n).toList = Nat.toDigits 10 n := Nat.toList_repr
  rw [htext]
  cases n with
  | zero => rfl
  | succ n =>
    obtain ⟨c, w, hdigits⟩ := List.exists_cons_of_ne_nil (@Nat.toDigits_ne_nil (n + 1) 10)
    have hhead := head?_toDigits (Nat.succ_pos n)
    rw [hdigits] at hhead
    have hvalue := Number.ofDigits_toDigits (n + 1)
    rw [hdigits] at hvalue ⊢
    rw [magnitude?_decimal (fun hc => hhead (congrArg some hc)), hvalue]

theorem integer?_unsigned {cs : List Char} (h : cs.head? ≠ some '-') :
    integer? cs = (magnitude? cs).map Int.ofNat := by
  rw [integer?]
  rintro rest rfl
  exact h rfl

/-- The text of an integer denotes it. -/
theorem integer?_toString (n : Int) : integer? (toString n).toList = some n := by
  rw [Number.toList_toString]
  split
  · rw [integer?, magnitude?_toString, Option.map_some]
    congr 1
    omega
  · have hhead : (toString n.natAbs).toList.head? ≠ some '-' := by
      intro hminus
      have hdigit : '-'.isDigit = true := by
        refine Nat.isDigit_of_mem_toDigits (b := 10) (n := n.natAbs) (by decide) (by decide) ?_
        rw [← Nat.toList_repr]
        exact List.mem_of_mem_head? hminus
      exact absurd hdigit (by decide)
    rw [integer?_unsigned hhead, magnitude?_toString, Option.map_some]
    congr 1
    simp only [Int.ofNat_eq_natCast]
    omega

theorem IsNumeral.head?_ne_minus {text : List Char} (h : IsNumeral text) :
    text.head? ≠ some '-' := by
  cases h with
  | decimal hdecimal =>
    intro hminus
    have hdigit := (Number.isDecimal_iff.1 hdecimal).2 '-' (List.mem_of_mem_head? hminus)
    exact absurd hdigit (by decide)
  | hex => simp

/-! ## Literals -/

section

variable {t : Placed} {sign : Option Placed} (hsign : ∀ m ∈ sign, m.isSymbol "-" = true)
include hsign

theorem readExpr_signed (ht : t.kind = .int) (source : List Char) :
    readExpr source (sign.toList ++ [t]) =
      .literalOrRaw
        ((Number.ofLiteral? t.text.toList).map fun n => .int (if sign.isSome then -n else n))
        (sign.elim "" (·.text) ++ t.text) (Run.tokens (sign.toList ++ [t])) := by
  cases sign with
  | none =>
    have hread := @readExpr_single source t.toToken (.inl ht) t.start
    simpa [Literal.ofToken?, ht, Run.tokens] using hread
  | some m =>
    have hm : m.toToken = .symbol "-" := eq_of_isSymbol (hsign m rfl)
    have hread := @readExpr_negated source t.toToken m.start t.start
    rw [← hm] at hread
    have htext : m.text = "-" := congrArg Token.text hm
    simpa [Literal.ofNegated?, ht, Run.tokens, htext] using hread

theorem integer?_signed (ht : IsNumeral t.text.toList) :
    integer? (sign.elim "" (·.text) ++ t.text).toList =
      (magnitude? t.text.toList).map fun (n : Nat) => if sign.isSome then -(n : Int) else n := by
  cases sign with
  | none =>
    rw [Option.elim_none, String.empty_append, integer?_unsigned ht.head?_ne_minus]
    rfl
  | some m =>
    have htext : m.text = "-" := congrArg Token.text (eq_of_isSymbol (hsign m rfl))
    rw [Option.elim_some, htext, String.toList_append]
    rfl

end

end Numeral

open Numeral in
/-- **The value of an integer literal is written as PHP reads the literal, unless more digits follow a
leading zero and make 8 or more; and no literal has a magnitude beyond 64 bits.** -/
theorem readExpr_numeral_iff {text : List Char} {run : Run} (h : scan text = .ok run) {t : Placed}
    (ht : t ∈ run) (hkind : t.kind = .int) {sign : Option Placed}
    (hsign : ∀ m ∈ sign, m.isSymbol "-" = true) (source : List Char) (env : Bindings) :
    (∀ n written, readExpr source (sign.toList ++ [t]) = .literal (.int n) written →
      written = sign.elim "" (·.text) ++ t.text ∧
      integer? ((readExpr source (sign.toList ++ [t])).eval env).text.toList = some n ∧
      (integer? ((readExpr source (sign.toList ++ [t])).eval env).text.toList =
          integer? written.toList ↔
        ¬(isOctal t.text.toList = true ∧ 8 ≤ Number.ofDigits 10 t.text.toList))) ∧
    ∀ m : Nat, magnitude? t.text.toList = some m → Number.maxInt < m →
      ∀ n written, readExpr source (sign.toList ++ [t]) ≠ .literal (.int n) written := by
  have hnumeral : IsNumeral t.text.toList := by
    obtain ⟨c, w, htext, hfound⟩ := (scans_of_scanFrom h).stands t.toToken (List.mem_map_of_mem ht)
    rw [List.append_nil, hkind] at hfound
    exact htext ▸ isNumeral_of_found hfound
  obtain ⟨v, hvalue, hsame, hle⟩ := hnumeral.exists_value
  have hread := readExpr_signed hsign hkind source
  have hwritten := integer?_signed hsign hnumeral
  rw [hvalue] at hread
  by_cases hmax : (v : Int) ≤ Number.maxInt
  · rw [if_pos hmax] at hread
    constructor
    · intro n written hliteral
      have htext : ((readExpr source (sign.toList ++ [t])).eval env).text = toString n := by
        rw [hliteral]
        rfl
      obtain ⟨⟨⟩, rfl⟩ := Expr.literal.inj (hread.symm.trans hliteral)
      refine ⟨rfl, by rw [htext, integer?_toString], ?_⟩
      rw [htext, integer?_toString, hwritten, ← hsame, eq_comm, Option.map_eq_some_iff]
      constructor
      · rintro ⟨m, hm, heq⟩
        rw [hm]
        split at heq <;> congr 1 <;> omega
      · exact fun hm => ⟨v, hm, rfl⟩
    · intro m hm hlarge
      have := hle m hm
      omega
  · rw [if_neg hmax] at hread
    have hraw (n : Int) (written : String) :
        readExpr source (sign.toList ++ [t]) ≠ .literal (.int n) written := by
      rw [hread]
      exact Expr.noConfusion
    exact ⟨fun n written hliteral => absurd hliteral (hraw n written), fun _ _ _ => hraw⟩

open Numeral in
/-- A literal that is 8 in PHP has the value 10. -/
theorem readExpr_numeral_iff_octal :
    ∃ t : Placed, scan "010".toList = .ok [t] ∧ readExpr [] [t] = .literal (.int 10) "010" ∧
      integer? ((readExpr [] [t]).eval []).text.toList = some 10 ∧
      ¬integer? ((readExpr [] [t]).eval []).text.toList = integer? "010".toList := by
  have hscan : scan "010".toList = .ok [⟨⟨.int, "010"⟩, 0⟩] := by cbv
  have hread : readExpr [] [⟨⟨.int, "010"⟩, 0⟩] = .literal (.int 10) "010" := by
    rw [readExpr_single (.inl rfl)]
    rfl
  have hsign : ∀ m ∈ (none : Option Placed), m.isSymbol "-" = true := by simp
  have hsame := (readExpr_numeral_iff hscan List.mem_cons_self rfl hsign [] []).1 10 "010" hread
  exact ⟨_, hscan, hread, hsame.2.1, hsame.2.2.not.2 (not_not.2 ⟨rfl, by decide⟩)⟩

end CurryGen

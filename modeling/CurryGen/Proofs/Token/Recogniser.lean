import CurryGen.Token.Scan
import Mathlib.Data.List.Find
import Mathlib.Data.List.TakeWhile

/-!
# The recognisers of the scan

How much of what follows matters to each part of a token: names, numbers, strings, comments and
attributes. For every recogniser two facts are stated.

* `..._of_append`: what it takes within `u` at the head of `u ++ y` it takes in `u` alone.
* `..._append_stop` or `..._append`: what it takes in `u` it takes before a character that ends it.
-/

namespace CurryGen.Scan

/-- The number of characters after the first that belong to what was found. -/
def Found.more : Found → Nat
  | .skipped k => k
  | .token _ k => k
  | .stuck k => k

/-- Whether nothing begins here. -/
def Found.isStuck : Found → Bool
  | .stuck _ => true
  | _ => false

/-! ## Runs of characters -/

theorem count_of_append {p : Char → Bool} {u y : List Char} (h : count p (u ++ y) ≤ u.length) :
    count p u = count p (u ++ y) := by
  unfold count at h ⊢
  rw [List.takeWhile_append] at h ⊢
  split at h
  · rename_i hall
    have : y.takeWhile p = [] := by
      rw [List.length_append] at h
      exact List.eq_nil_of_length_eq_zero (by omega)
    simp [hall, this]
  · rename_i hnot
    simp [hnot]

theorem count_append_stop {p : Char → Bool} {d : Char} (hd : p d = false) (u y : List Char) :
    count p (u ++ d :: y) = count p u := by
  unfold count
  rw [List.takeWhile_append]
  split
  · rename_i hall
    simp [hd, hall]
  · rfl

theorem count_le_length (p : Char → Bool) (u : List Char) : count p u ≤ u.length :=
  (List.takeWhile_sublist p).length_le

theorem count_eq_length_iff {p : Char → Bool} {w : List Char} :
    count p w = w.length ↔ ∀ d ∈ w, p d = true := by
  rw [← List.takeWhile_eq_self_iff]
  exact ⟨(List.takeWhile_prefix p).eq_of_length, fun h => by rw [count, h]⟩

/-! ## Names -/

theorem isAlpha_iff {c : Char} : c.isAlpha = true ↔
    (65 ≤ c.toNat ∧ c.toNat ≤ 90) ∨ (97 ≤ c.toNat ∧ c.toNat ≤ 122) := by
  have hupper : c.isUpper = true ↔ 'A'.val ≤ c.val ∧ c.val ≤ 'Z'.val := decide_eq_true_iff
  have hlower : c.isLower = true ↔ 'a'.val ≤ c.val ∧ c.val ≤ 'z'.val := by
    show (decide ('a'.val ≤ c.val) && decide (c.val ≤ 'z'.val)) = true ↔ _
    rw [Bool.and_eq_true, decide_eq_true_iff, decide_eq_true_iff]
  show (c.isUpper || c.isLower) = true ↔ _
  rw [Bool.or_eq_true, hupper, hlower]
  rfl

theorem isNameChar_iff {c : Char} : isNameChar c = true ↔ (65 ≤ c.toNat ∧ c.toNat ≤ 90) ∨
    (97 ≤ c.toNat ∧ c.toNat ≤ 122) ∨ (48 ≤ c.toNat ∧ c.toNat ≤ 57) ∨ c = '_' := by
  have hdigit : c.isDigit = true ↔ 48 ≤ c.toNat ∧ c.toNat ≤ 57 := Char.isDigit_iff_toNat
  show ((c.isAlpha || c.isDigit) || c == '_') = true ↔ _
  rw [Bool.or_eq_true, Bool.or_eq_true, isAlpha_iff, hdigit, beq_iff_eq, or_assoc, or_assoc]

theorem isNameChar_of_isNameStart {c : Char} (h : isNameStart c = true) : isNameChar c = true := by
  simp only [isNameStart, isNameChar, Bool.or_eq_true, Char.isAlphanum] at h ⊢
  exact h.imp_left .inl

theorem isNameChar_backslash : isNameChar '\\' = false := by decide

theorem nameTail_backslash (d : Char) (ds : List Char) :
    nameTail ('\\' :: d :: ds) = if isNameStart d then nameTail ds + 2 else 0 := rfl

theorem nameTail_cons {c : Char} (hc : c ≠ '\\') (cs : List Char) :
    nameTail (c :: cs) = if isNameChar c then nameTail cs + 1 else 0 := by
  rw [nameTail]
  rintro d ds rfl
  exact absurd rfl hc

/-- A character that continues no name. -/
theorem nameTail_stop {d : Char} (hd : isNameChar d = false) (hslash : d ≠ '\\') (y : List Char) :
    nameTail (d :: y) = 0 := by
  simp [nameTail_cons hslash, hd]

theorem nameTail_lone_backslash : nameTail ['\\'] = 0 := by decide

/-- Induction by characters, and over a backslash together with the character after it. -/
theorem backslashInduction {P : List Char → Prop} (nil : P []) (backslash : P ['\\'])
    (hidden : ∀ d ds, P ds → P ('\\' :: d :: ds)) (char : ∀ c cs, c ≠ '\\' → P cs → P (c :: cs)) :
    ∀ u, P u
  | [] => nil
  | [c] => if h : c = '\\' then h ▸ backslash else char c [] h nil
  | c :: d :: ds =>
    if h : c = '\\' then h ▸ hidden d ds (backslashInduction nil backslash hidden char ds)
    else char c (d :: ds) h (backslashInduction nil backslash hidden char (d :: ds))

theorem nameTail_of_append {u y : List Char} (h : nameTail (u ++ y) ≤ u.length) :
    nameTail u = nameTail (u ++ y) := by
  induction u using backslashInduction with
  | nil => simpa [nameTail, eq_comm] using h
  | backslash =>
    cases y with
    | nil => rfl
    | cons d ds =>
      rw [List.singleton_append, nameTail_backslash] at h ⊢
      rw [nameTail_lone_backslash]
      split at h
      · simp at h
      · rename_i hd
        simp [hd]
  | hidden d ds ih =>
    rw [List.cons_append, List.cons_append, nameTail_backslash] at h ⊢
    rw [nameTail_backslash]
    split at h
    · simp only [List.length_cons] at h
      rw [ih (by omega)]
    · rename_i hd
      simp [hd]
  | char c cs hc ih =>
    rw [List.cons_append, nameTail_cons hc] at h ⊢
    rw [nameTail_cons hc]
    split at h
    · simp only [List.length_cons] at h
      rw [ih (by omega)]
    · rename_i hd
      simp [hd]

theorem nameTail_append_stop {d : Char} (hd : isNameChar d = false) (hslash : d ≠ '\\')
    (u y : List Char) : nameTail (u ++ d :: y) = nameTail u := by
  have hstart : isNameStart d = false := by
    cases h : isNameStart d with
    | false => rfl
    | true => rw [isNameChar_of_isNameStart h] at hd; cases hd
  induction u using backslashInduction with
  | nil => exact nameTail_stop hd hslash y
  | backslash => simp [nameTail_backslash, hstart, nameTail_lone_backslash]
  | hidden e es ih => simp [nameTail_backslash, ih]
  | char c cs hc ih => simp [nameTail_cons hc, ih]

theorem nameTail_le_length (u : List Char) : nameTail u ≤ u.length := by
  induction u using backslashInduction with
  | nil => simp [nameTail]
  | backslash => simp [nameTail_lone_backslash]
  | hidden d ds ih => rw [nameTail_backslash]; split <;> simp [ih]
  | char c cs hc ih => rw [nameTail_cons hc]; split <;> simp [ih]

/-! ## Numbers -/

/-- A character that continues neither a name nor a number. -/
def isStop (d : Char) : Bool := !isNameChar d && d != '\\' && d != '.'

theorem isStop_iff {d : Char} : isStop d = true ↔ isNameChar d = false ∧ d ≠ '\\' ∧ d ≠ '.' := by
  simp [isStop, and_assoc]

theorem isNameChar_of_isDigit {d : Char} (h : d.isDigit = true) : isNameChar d = true := by
  simp [isNameChar, Char.isAlphanum, h]

theorem isNameChar_of_isHexDigit {d : Char} (h : isHexDigit d = true) : isNameChar d = true := by
  simp only [isHexDigit, Bool.or_eq_true, Bool.and_eq_true, decide_eq_true_eq] at h
  rcases h with (h | ⟨hd, hd'⟩) | ⟨hd, hd'⟩
  · exact isNameChar_of_isDigit h
  · have hlast : d ≤ 'z' := Char.le_trans hd' (by decide)
    exact isNameChar_iff.2 (.inr (.inl ⟨hd, hlast⟩))
  · have hlast : d ≤ 'Z' := Char.le_trans hd' (by decide)
    exact isNameChar_iff.2 (.inl ⟨hd, hlast⟩)

/-- What holds of name characters only does not hold of a character that is none. -/
theorem eq_false_of_isNameChar {p : Char → Bool} (hp : ∀ c, p c = true → isNameChar c = true)
    {d : Char} (hd : isNameChar d = false) : p d = false := by
  cases h : p d with
  | false => rfl
  | true => rw [hp d h] at hd; cases hd

theorem isDigit_eq_false {d : Char} (hd : isNameChar d = false) : d.isDigit = false :=
  eq_false_of_isNameChar (fun _ => isNameChar_of_isDigit) hd

theorem isHexDigit_eq_false {d : Char} (hd : isNameChar d = false) : isHexDigit d = false :=
  eq_false_of_isNameChar (fun _ => isNameChar_of_isHexDigit) hd

theorem exponent_cons (mark : Char) (cs : List Char) :
    exponent (mark :: cs) =
      if mark == 'e' || mark == 'E' then
        if 0 < count Char.isDigit cs then count Char.isDigit cs + 1
        else if 0 < signedDigits cs then signedDigits cs + 2
        else 0
      else 0 := rfl

def isSign (d : Char) : Bool := d == '+' || d == '-'

theorem signedDigits_sign {c : Char} (hc : isSign c = true) (cs : List Char) :
    signedDigits (c :: cs) = count Char.isDigit cs := by
  rcases Bool.or_eq_true_iff.1 hc with hc | hc <;> rw [eq_of_beq hc] <;> rfl

theorem signedDigits_other {c : Char} (hc : isSign c = false) (cs : List Char) :
    signedDigits (c :: cs) = 0 := by
  rw [signedDigits] <;> rintro ds heq <;> cases heq <;> cases hc

theorem signedDigits_of_append {u y : List Char} (h : signedDigits (u ++ y) < u.length) :
    signedDigits u = signedDigits (u ++ y) := by
  cases u with
  | nil => simp at h
  | cons c cs =>
    rw [List.cons_append] at h ⊢
    cases hc : isSign c with
    | true =>
      rw [signedDigits_sign hc] at h ⊢
      rw [signedDigits_sign hc, count_of_append (by simpa [Nat.lt_succ_iff] using h)]
    | false => rw [signedDigits_other hc, signedDigits_other hc]

theorem signedDigits_eq_zero_of_append {u y : List Char} (h : signedDigits (u ++ y) = 0) :
    signedDigits u = 0 := by
  cases u with
  | nil => rfl
  | cons c cs =>
    have hlt : signedDigits (c :: cs ++ y) < (c :: cs).length := by
      rw [h]
      simp
    rw [signedDigits_of_append hlt, h]

theorem exponent_of_append {u y : List Char} (h : exponent (u ++ y) ≤ u.length) :
    exponent u = exponent (u ++ y) := by
  cases u with
  | nil =>
    have hzero : exponent y = 0 := Nat.le_zero.1 h
    rw [List.nil_append, hzero, exponent]
  | cons mark cs =>
    rw [List.cons_append, exponent_cons] at h ⊢
    rw [exponent_cons]
    split
    · rename_i hmark
      rw [if_pos hmark, List.length_cons] at h
      have hcount : count Char.isDigit (cs ++ y) ≤ cs.length := by
        split at h
        · omega
        · rename_i hnone
          omega
      rw [count_of_append hcount]
      by_cases hdigits : 0 < count Char.isDigit (cs ++ y)
      · rw [if_pos hdigits, if_pos hdigits]
      · rw [if_neg hdigits] at h
        rw [if_neg hdigits, if_neg hdigits]
        by_cases hsigned : 0 < signedDigits (cs ++ y)
        · rw [if_pos hsigned] at h
          have hlt : signedDigits (cs ++ y) < cs.length := by omega
          rw [signedDigits_of_append hlt]
        · have hzero : signedDigits (cs ++ y) = 0 := by omega
          rw [signedDigits_eq_zero_of_append hzero, hzero]
    · rfl

theorem signedDigits_append_stop {d : Char} (hd : isNameChar d = false) (y : List Char)
    {u : List Char} (hu : isSign d = false ∨ u ≠ []) :
    signedDigits (u ++ d :: y) = signedDigits u := by
  cases u with
  | nil =>
    rw [List.nil_append, signedDigits_other (hu.resolve_right (by simp))]
    rfl
  | cons c cs =>
    rw [List.cons_append]
    cases hc : isSign c with
    | true =>
      rw [signedDigits_sign hc, signedDigits_sign hc, count_append_stop (isDigit_eq_false hd)]
    | false => rw [signedDigits_other hc, signedDigits_other hc]

/-- A character that is no part of a name begins no exponent. -/
theorem exponent_stop {d : Char} (hd : isNameChar d = false) (y : List Char) :
    exponent (d :: y) = 0 := by
  rw [exponent_cons, if_neg]
  simp only [Bool.or_eq_true, beq_iff_eq]
  rintro (rfl | rfl) <;> cases hd

theorem exponent_append_stop {d : Char} (hd : isNameChar d = false) (y : List Char)
    {u : List Char} (hu : isSign d = false ∨ exponent u = u.length) :
    exponent (u ++ d :: y) = exponent u := by
  cases u with
  | nil => exact exponent_stop hd y
  | cons mark cs =>
    rw [List.cons_append, exponent_cons, exponent_cons, count_append_stop (isDigit_eq_false hd),
      signedDigits_append_stop hd y]
    refine hu.imp_right ?_
    rintro hfull rfl
    -- a mark alone is no exponent
    rw [exponent_cons] at hfull
    simp [count, signedDigits] at hfull

theorem signedDigits_le_length (u : List Char) : signedDigits u ≤ u.length - 1 := by
  cases u with
  | nil => exact Nat.le_refl 0
  | cons c cs =>
    cases hc : isSign c with
    | true =>
      rw [signedDigits_sign hc]
      exact count_le_length Char.isDigit cs
    | false =>
      rw [signedDigits_other hc]
      exact Nat.zero_le _

theorem exponent_le_length (u : List Char) : exponent u ≤ u.length := by
  cases u with
  | nil => exact Nat.le_refl 0
  | cons mark cs =>
    have hdigits := count_le_length Char.isDigit cs
    have hsigned := signedDigits_le_length cs
    rw [exponent_cons, List.length_cons]
    repeat' split
    all_goals omega

theorem fraction_point (cs : List Char) :
    fraction ('.' :: cs) =
      if count Char.isDigit cs = 0 then 0
      else count Char.isDigit cs + 1 + exponent (cs.drop (count Char.isDigit cs)) := rfl

theorem fraction_other {c : Char} (hc : c ≠ '.') (cs : List Char) : fraction (c :: cs) = 0 := by
  rw [fraction]
  rintro ds heq
  cases heq
  exact hc rfl

theorem fraction_of_append {u y : List Char} (h : fraction (u ++ y) ≤ u.length) :
    fraction u = fraction (u ++ y) := by
  cases u with
  | nil =>
    have hzero : fraction y = 0 := Nat.le_zero.1 h
    rw [List.nil_append, hzero, fraction]
    simp
  | cons c cs =>
    rw [List.cons_append] at h ⊢
    by_cases hc : c = '.'
    · subst hc
      rw [fraction_point] at h ⊢
      rw [fraction_point]
      split at h
      · rename_i hnone
        have hle : count Char.isDigit (cs ++ y) ≤ cs.length := by omega
        rw [count_of_append hle, if_pos hnone, if_pos hnone]
      · rename_i hsome
        rw [List.length_cons] at h
        have hle : count Char.isDigit (cs ++ y) ≤ cs.length := by omega
        rw [count_of_append hle, if_neg hsome, if_neg hsome]
        rw [List.drop_append_of_le_length hle] at h ⊢
        have hlt : exponent (cs.drop (count Char.isDigit (cs ++ y)) ++ y)
            ≤ (cs.drop (count Char.isDigit (cs ++ y))).length := by
          rw [List.length_drop]; omega
        rw [exponent_of_append hlt]
    · rw [fraction_other hc, fraction_other hc]

theorem fraction_append_stop {d : Char} (hd : isNameChar d = false) (hpoint : d ≠ '.')
    (y : List Char) {u : List Char} (hu : isSign d = false ∨ fraction u = u.length) :
    fraction (u ++ d :: y) = fraction u := by
  cases u with
  | nil => exact fraction_other hpoint y
  | cons c cs =>
    rw [List.cons_append]
    by_cases hc : c = '.'
    · subst hc
      have hle := count_le_length Char.isDigit cs
      rw [fraction_point, fraction_point, count_append_stop (isDigit_eq_false hd),
        List.drop_append_of_le_length hle]
      split
      · rfl
      · rename_i hsome
        rw [exponent_append_stop hd y]
        refine hu.imp_right fun hfull => ?_
        rw [fraction_point, if_neg hsome, List.length_cons] at hfull
        rw [List.length_drop]; omega
    · rw [fraction_other hc, fraction_other hc]

theorem fraction_le_length (u : List Char) : fraction u ≤ u.length := by
  cases u with
  | nil => exact Nat.le_refl 0
  | cons c cs =>
    by_cases hc : c = '.'
    · subst hc
      have hdigits := count_le_length Char.isDigit cs
      have hexponent := exponent_le_length (cs.drop (count Char.isDigit cs))
      rw [List.length_drop] at hexponent
      rw [fraction_point, List.length_cons]
      split <;> omega
    · rw [fraction_other hc]
      exact Nat.zero_le _

def isHexMark (c : Char) : Bool := c == 'x' || c == 'X'

theorem hexTail_mark {c : Char} (hc : isHexMark c = true) (cs : List Char) :
    hexTail (c :: cs) = if count isHexDigit cs = 0 then 0 else count isHexDigit cs + 1 := by
  rcases Bool.or_eq_true_iff.1 hc with hc | hc <;> rw [eq_of_beq hc] <;> rfl

theorem hexTail_other {c : Char} (hc : isHexMark c = false) (cs : List Char) :
    hexTail (c :: cs) = 0 := by
  rw [hexTail] <;> rintro ds heq <;> cases heq <;> cases hc

theorem hexTail_of_append {u y : List Char} (h : hexTail (u ++ y) ≤ u.length) :
    hexTail u = hexTail (u ++ y) := by
  cases u with
  | nil =>
    have hzero : hexTail y = 0 := Nat.le_zero.1 h
    rw [List.nil_append, hzero, hexTail] <;> simp
  | cons c cs =>
    rw [List.cons_append] at h ⊢
    cases hc : isHexMark c with
    | true =>
      rw [hexTail_mark hc] at h ⊢
      rw [hexTail_mark hc]
      have hle : count isHexDigit (cs ++ y) ≤ cs.length := by
        split at h
        · omega
        · simpa using h
      rw [count_of_append hle]
    | false => rw [hexTail_other hc, hexTail_other hc]

theorem hexTail_append_stop {d : Char} (hd : isNameChar d = false) (u y : List Char) :
    hexTail (u ++ d :: y) = hexTail u := by
  cases u with
  | nil =>
    have hmark (c : Char) (hc : isHexMark c = true) : isNameChar c = true := by
      rcases Bool.or_eq_true_iff.1 hc with hc | hc <;> rw [eq_of_beq hc] <;> rfl
    exact hexTail_other (eq_false_of_isNameChar hmark hd) y
  | cons c cs =>
    rw [List.cons_append]
    cases hc : isHexMark c with
    | true => rw [hexTail_mark hc, hexTail_mark hc, count_append_stop (isHexDigit_eq_false hd)]
    | false => rw [hexTail_other hc, hexTail_other hc]

theorem hexTail_le_length (u : List Char) : hexTail u ≤ u.length := by
  cases u with
  | nil => exact Nat.le_refl 0
  | cons c cs =>
    cases hc : isHexMark c with
    | true =>
      have hdigits := count_le_length isHexDigit cs
      rw [hexTail_mark hc, List.length_cons]
      split <;> omega
    | false =>
      rw [hexTail_other hc]
      exact Nat.zero_le _

/-- The part of a number after its first digits. -/
def numberTail (cs : List Char) : Nat := max (fraction cs) (exponent cs)

theorem number_eq (first : Char) (cs : List Char) :
    number first cs =
      if 0 < numberTail (cs.drop (count Char.isDigit cs)) then
        .token .float (count Char.isDigit cs + numberTail (cs.drop (count Char.isDigit cs)))
      else if first == '0' && count Char.isDigit cs == 0 then .token .int (hexTail cs)
      else .token .int (count Char.isDigit cs) := rfl

theorem numberTail_of_append {u y : List Char} (h : numberTail (u ++ y) ≤ u.length) :
    numberTail u = numberTail (u ++ y) := by
  have hfraction : fraction (u ++ y) ≤ u.length := Nat.le_trans (Nat.le_max_left _ _) h
  have hexponent : exponent (u ++ y) ≤ u.length := Nat.le_trans (Nat.le_max_right _ _) h
  rw [numberTail, numberTail, fraction_of_append hfraction, exponent_of_append hexponent]

theorem numberTail_point (cs : List Char) : numberTail ('.' :: cs) = fraction ('.' :: cs) :=
  Nat.max_zero _

theorem numberTail_other {c : Char} (hc : c ≠ '.') (cs : List Char) :
    numberTail (c :: cs) = exponent (c :: cs) := by
  rw [numberTail, fraction_other hc, Nat.zero_max]

theorem numberTail_hexMark {c : Char} (hc : isHexMark c = true) (cs : List Char) :
    numberTail (c :: cs) = 0 := by
  rcases Bool.or_eq_true_iff.1 hc with hc | hc <;> rw [eq_of_beq hc] <;> rfl

theorem numberTail_append_stop {d : Char} (hd : isNameChar d = false) (hpoint : d ≠ '.')
    (y : List Char) {u : List Char} (hu : isSign d = false ∨ numberTail u = u.length) :
    numberTail (u ++ d :: y) = numberTail u := by
  cases u with
  | nil =>
    rw [List.nil_append, numberTail_other hpoint, exponent_stop hd]
    rfl
  | cons c cs =>
    by_cases hc : c = '.'
    · subst hc
      rw [numberTail_point] at hu ⊢
      rw [List.cons_append, numberTail_point]
      exact fraction_append_stop hd hpoint y hu
    · rw [numberTail_other hc] at hu ⊢
      rw [List.cons_append, numberTail_other hc]
      exact exponent_append_stop hd y hu

theorem number_of_append {first : Char} {u y : List Char}
    (h : (number first (u ++ y)).more ≤ u.length) : number first u = number first (u ++ y) := by
  rw [number_eq] at h ⊢
  rw [number_eq]
  have hdigits : count Char.isDigit (u ++ y) ≤ u.length := by
    split at h
    · exact Nat.le_trans (Nat.le_add_right _ _) h
    · split at h
      · rename_i hzero
        simp only [Bool.and_eq_true, beq_iff_eq] at hzero
        omega
      · exact h
  rw [count_of_append hdigits, List.drop_append_of_le_length hdigits] at *
  have htail : numberTail (u.drop (count Char.isDigit (u ++ y)) ++ y)
      ≤ (u.drop (count Char.isDigit (u ++ y))).length := by
    rw [List.length_drop]
    split at h
    · simp only [Found.more] at h
      omega
    · omega
  rw [numberTail_of_append htail] at *
  split
  · rfl
  · rename_i hnone
    rw [if_neg hnone] at h
    split
    · rename_i hzero
      rw [if_pos hzero] at h
      rw [hexTail_of_append h]
    · rfl

/-- A number that takes a whole text has a tail that takes the rest, or none because it is
hexadecimal. -/
theorem numberTail_append_of_number {first d : Char} (hd : isNameChar d = false) (hpoint : d ≠ '.')
    (y : List Char) {u : List Char}
    (hu : isSign d = false ∨ (number first u).more = u.length) :
    numberTail (u.drop (count Char.isDigit u) ++ d :: y)
      = numberTail (u.drop (count Char.isDigit u)) := by
  rcases hu with hu | hu
  · exact numberTail_append_stop hd hpoint y (.inl hu)
  · have hle := count_le_length Char.isDigit u
    rw [number_eq] at hu
    split at hu
    · refine numberTail_append_stop hd hpoint y (.inr ?_)
      simp only [Found.more] at hu
      rw [List.length_drop]
      omega
    · rename_i hnone
      split at hu
      · rename_i hzero
        simp only [Bool.and_eq_true, beq_iff_eq] at hzero
        rw [hzero.2, List.drop_zero]
        cases u with
        | nil => exact numberTail_append_stop hd hpoint y (.inr rfl)
        | cons c cs =>
          cases hc : isHexMark c with
          | true => rw [List.cons_append, numberTail_hexMark hc, numberTail_hexMark hc]
          | false =>
            simp only [Found.more, hexTail_other hc, List.length_cons] at hu
            omega
      · refine numberTail_append_stop hd hpoint y (.inr ?_)
        simp only [Found.more] at hu
        rw [hu, List.drop_length]
        rfl

theorem number_append_stop {first d : Char} (hd : isNameChar d = false) (hpoint : d ≠ '.')
    (y : List Char) {u : List Char}
    (hu : isSign d = false ∨ (number first u).more = u.length) :
    number first (u ++ d :: y) = number first u := by
  rw [number_eq, number_eq, count_append_stop (isDigit_eq_false hd), hexTail_append_stop hd,
    List.drop_append_of_le_length (count_le_length _ _), numberTail_append_of_number hd hpoint y hu]

theorem number_le_length (first : Char) (u : List Char) : (number first u).more ≤ u.length := by
  have hdigits := count_le_length Char.isDigit u
  have htail : numberTail (u.drop (count Char.isDigit u)) ≤ u.length - count Char.isDigit u := by
    rw [← List.length_drop]
    exact Nat.max_le.2 ⟨fraction_le_length _, exponent_le_length _⟩
  rw [number_eq]
  split
  · simp only [Found.more]
    omega
  · split
    · exact hexTail_le_length u
    · exact hdigits

/-! ## Strings -/

theorem units_cons {quote c : Char} (hc : c ≠ '\\') (cs : List Char) :
    units quote (c :: cs) =
      if c == quote then (0, true) else ((units quote cs).1 + 1, (units quote cs).2) := by
  rw [units]
  exact hc

theorem units_backslash (quote c : Char) (cs : List Char) :
    units quote ('\\' :: c :: cs) =
      if c == '\n' then (0, false) else ((units quote cs).1 + 2, (units quote cs).2) := rfl

/-- A string that is closed within `u` is the same whatever follows. -/
theorem units_append {quote : Char} (u y : List Char) (h : (units quote u).2 = true) :
    units quote (u ++ y) = units quote u := by
  induction u using backslashInduction with
  | nil => cases h
  | backslash => cases h
  | hidden c cs ih =>
    rw [units_backslash] at h
    rw [List.cons_append, List.cons_append, units_backslash, units_backslash]
    split
    · rfl
    · rename_i hc
      rw [if_neg hc] at h
      rw [ih h]
  | char c cs hc ih =>
    rw [units_cons hc] at h
    rw [List.cons_append, units_cons hc, units_cons hc]
    split
    · rfl
    · rename_i hquote
      rw [if_neg hquote] at h
      rw [ih h]

theorem units_of_append {quote : Char} {u y : List Char} (h : (units quote (u ++ y)).2 = true)
    (hle : (units quote (u ++ y)).1 < u.length) : units quote u = units quote (u ++ y) := by
  induction u using backslashInduction with
  | nil => simp at hle
  | backslash =>
    cases y with
    | nil => rfl
    | cons c cs =>
      rw [List.singleton_append, units_backslash] at h hle
      split at h
      · cases h
      · rename_i hc
        rw [if_neg hc] at hle
        simp at hle
  | hidden c cs ih =>
    rw [List.cons_append, List.cons_append, units_backslash] at h hle ⊢
    rw [units_backslash]
    split
    · rfl
    · rename_i hc
      rw [if_neg hc] at h hle
      simp only [List.length_cons] at hle
      rw [ih h (by omega)]
  | char c cs hc ih =>
    rw [List.cons_append, units_cons hc] at h hle ⊢
    rw [units_cons hc]
    split
    · rfl
    · rename_i hquote
      rw [if_neg hquote] at h hle
      simp only [List.length_cons] at hle
      rw [ih h (by omega)]

theorem units_le_length {quote : Char} {u : List Char} (h : (units quote u).2 = true) :
    (units quote u).1 < u.length := by
  induction u using backslashInduction with
  | nil => cases h
  | backslash => cases h
  | hidden c cs ih =>
    rw [units_backslash] at h ⊢
    split
    · simp
    · rename_i hc
      rw [if_neg hc] at h
      simpa using ih h
  | char c cs hc ih =>
    rw [units_cons hc] at h ⊢
    split
    · simp
    · rename_i hquote
      rw [if_neg hquote] at h
      simpa using ih h

theorem quoted_eq (quote : Char) (cs : List Char) :
    quoted quote cs =
      if (units quote cs).2 then .token .string ((units quote cs).1 + 1)
      else .stuck (units quote cs).1 := by
  rw [quoted]
  rcases units quote cs with ⟨n, _ | _⟩ <;> rfl

theorem quoted_le_length {quote : Char} {u : List Char} (h : (quoted quote u).isStuck = false) :
    (quoted quote u).more ≤ u.length := by
  rw [quoted_eq] at h ⊢
  split at h
  · rename_i hclosed
    rw [if_pos hclosed]
    exact units_le_length hclosed
  · cases h

theorem quoted_append {quote : Char} {u : List Char} (h : (quoted quote u).isStuck = false)
    (y : List Char) : quoted quote (u ++ y) = quoted quote u := by
  rw [quoted_eq] at h
  split at h
  · rename_i hclosed
    rw [quoted_eq, quoted_eq, units_append u y hclosed]
  · cases h

theorem quoted_of_append {quote : Char} {u y : List Char}
    (h : (quoted quote (u ++ y)).isStuck = false)
    (hle : (quoted quote (u ++ y)).more ≤ u.length) : quoted quote u = quoted quote (u ++ y) := by
  rw [quoted_eq] at h hle
  split at h
  · rename_i hclosed
    rw [if_pos hclosed] at hle
    rw [quoted_eq, quoted_eq, units_of_append hclosed hle]
  · cases h

/-! ## Comments and attributes -/

theorem closeComment_cons {c : Char} {cs : List Char} (h : ¬(c = '*' ∧ cs.head? = some '/')) :
    closeComment (c :: cs) = (closeComment cs).map (· + 1) := by
  rw [closeComment]
  rintro rest rfl rfl
  exact h ⟨rfl, rfl⟩

theorem closeComment_close {c : Char} {cs : List Char} (h : c = '*' ∧ cs.head? = some '/') :
    closeComment (c :: cs) = some 2 := by
  obtain ⟨rfl, hhead⟩ := h
  obtain ⟨rest, rfl⟩ := List.head?_eq_some_iff.1 hhead
  rfl

theorem closeComment_pos {cs : List Char} {n : Nat} (h : closeComment cs = some n) : 0 < n := by
  cases cs with
  | nil => cases h
  | cons c cs =>
    by_cases hclose : c = '*' ∧ cs.head? = some '/'
    · rw [closeComment_close hclose] at h
      cases h
      decide
    · rw [closeComment_cons hclose] at h
      obtain ⟨k, -, rfl⟩ := Option.map_eq_some_iff.1 h
      exact Nat.succ_pos k

theorem head?_append_of_ne_nil {u : List Char} (h : u ≠ []) (y : List Char) :
    (u ++ y).head? = u.head? := by
  cases u with
  | nil => exact absurd rfl h
  | cons c cs => rfl

theorem closeComment_append {u : List Char} {n : Nat} (h : closeComment u = some n)
    (y : List Char) : closeComment (u ++ y) = some n := by
  induction u generalizing n with
  | nil => cases h
  | cons c cs ih =>
    by_cases hclose : c = '*' ∧ cs.head? = some '/'
    · rw [closeComment_close hclose] at h
      obtain ⟨rfl, hhead⟩ := hclose
      obtain ⟨rest, rfl⟩ := List.head?_eq_some_iff.1 hhead
      exact h
    · rw [closeComment_cons hclose] at h
      obtain ⟨k, hk, rfl⟩ := Option.map_eq_some_iff.1 h
      have hne : cs ≠ [] := by
        rintro rfl
        cases hk
      rw [List.cons_append, closeComment_cons, ih hk]
      · rfl
      · rwa [head?_append_of_ne_nil hne]

theorem closeComment_le_length {u : List Char} {n : Nat} (h : closeComment u = some n) :
    n ≤ u.length := by
  induction u generalizing n with
  | nil => cases h
  | cons c cs ih =>
    by_cases hclose : c = '*' ∧ cs.head? = some '/'
    · rw [closeComment_close hclose] at h
      cases h
      obtain ⟨rest, rfl⟩ := List.head?_eq_some_iff.1 hclose.2
      simp
    · rw [closeComment_cons hclose] at h
      obtain ⟨k, hk, rfl⟩ := Option.map_eq_some_iff.1 h
      exact Nat.succ_le_succ (ih hk)

/-- A comment that is not closed within `u` ends after it. -/
theorem length_lt_of_closeComment_append {u y : List Char} {n : Nat} (h : closeComment u = none)
    (hn : closeComment (u ++ y) = some n) : u.length < n := by
  induction u generalizing n with
  | nil => exact closeComment_pos hn
  | cons c cs ih =>
    have hopen : ¬(c = '*' ∧ cs.head? = some '/') := by
      intro hclose
      rw [closeComment_close hclose] at h
      cases h
    rw [closeComment_cons hopen, Option.map_eq_none_iff] at h
    rw [List.cons_append] at hn
    by_cases hclose : c = '*' ∧ (cs ++ y).head? = some '/'
    · have hnil : cs = [] := by
        refine Classical.byContradiction fun hne => ?_
        rw [head?_append_of_ne_nil hne] at hclose
        exact hopen hclose
      rw [closeComment_close hclose] at hn
      cases hn
      simp [hnil]
    · rw [closeComment_cons hclose] at hn
      obtain ⟨k, hk, rfl⟩ := Option.map_eq_some_iff.1 hn
      have := ih h hk
      simp only [List.length_cons]
      omega

theorem closeComment_of_append {u y : List Char} {n : Nat} (h : closeComment (u ++ y) = some n)
    (hle : n ≤ u.length) : closeComment u = some n := by
  cases hu : closeComment u with
  | none =>
    have := length_lt_of_closeComment_append hu h
    omega
  | some k => rw [← h, closeComment_append hu y]

theorem closeAttribute_append {s : AttributeState} {u : List Char} {n : Nat}
    (h : closeAttribute s u = some n) (y : List Char) : closeAttribute s (u ++ y) = some n := by
  induction u generalizing s n with
  | nil => cases h
  | cons c cs ih =>
    rw [closeAttribute] at h
    rw [List.cons_append, closeAttribute]
    split at h
    · exact h
    · obtain ⟨k, hk, rfl⟩ := Option.map_eq_some_iff.1 h
      rw [ih hk]
      rfl

theorem closeAttribute_le_length {s : AttributeState} {u : List Char} {n : Nat}
    (h : closeAttribute s u = some n) : n ≤ u.length := by
  induction u generalizing s n with
  | nil => cases h
  | cons c cs ih =>
    rw [closeAttribute] at h
    split at h
    · cases h
      simp
    · obtain ⟨k, hk, rfl⟩ := Option.map_eq_some_iff.1 h
      exact Nat.succ_le_succ (ih hk)

theorem closeAttribute_of_append {s : AttributeState} {u y : List Char} {n : Nat}
    (h : closeAttribute s (u ++ y) = some n) (hle : n ≤ u.length) : closeAttribute s u = some n := by
  induction u generalizing s n with
  | nil =>
    have hpos : 0 < n := by
      rw [List.nil_append] at h
      cases y with
      | nil => cases h
      | cons c cs =>
        rw [closeAttribute] at h
        split at h
        · cases h
          exact Nat.one_pos
        · obtain ⟨k, -, rfl⟩ := Option.map_eq_some_iff.1 h
          exact Nat.succ_pos k
    exact absurd hle (by simpa using Nat.pos_iff_ne_zero.1 hpos)
  | cons c cs ih =>
    rw [List.cons_append, closeAttribute] at h
    rw [closeAttribute]
    split at h
    · exact h
    · obtain ⟨k, hk, rfl⟩ := Option.map_eq_some_iff.1 h
      rw [ih hk (by simpa using hle)]
      rfl

theorem blockComment_append {u : List Char} (h : (blockComment u).isStuck = false) (y : List Char) :
    blockComment (u ++ y) = blockComment u := by
  unfold blockComment at h ⊢
  cases hn : closeComment u with
  | none =>
    rw [hn] at h
    cases h
  | some n =>
    have hne : u ≠ [] := by
      rintro rfl
      cases hn
    rw [closeComment_append hn, head?_append_of_ne_nil hne]

theorem blockComment_le_length {u : List Char} (h : (blockComment u).isStuck = false) :
    (blockComment u).more ≤ u.length + 1 := by
  unfold blockComment at h ⊢
  cases hn : closeComment u with
  | none =>
    rw [hn] at h
    cases h
  | some n =>
    have := closeComment_le_length hn
    simp only
    split <;> exact Nat.succ_le_succ this

theorem blockComment_of_append {u y : List Char} (h : (blockComment (u ++ y)).isStuck = false)
    (hle : (blockComment (u ++ y)).more ≤ u.length + 1) :
    blockComment u = blockComment (u ++ y) := by
  unfold blockComment at h hle ⊢
  cases hn : closeComment (u ++ y) with
  | none =>
    rw [hn] at h
    cases h
  | some n =>
    simp only [hn] at hle ⊢
    have hclosed : n ≤ u.length := by
      split at hle <;> exact Nat.le_of_succ_le_succ hle
    have hne : u ≠ [] := by
      rintro rfl
      exact absurd (closeComment_pos hn) (by simpa using hclosed)
    rw [closeComment_of_append hn hclosed, head?_append_of_ne_nil hne]

theorem attributeGroup_append {u : List Char} (h : (attributeGroup u).isStuck = false)
    (y : List Char) : attributeGroup (u ++ y) = attributeGroup u := by
  unfold attributeGroup at h ⊢
  cases hn : closeAttribute {} u with
  | none =>
    rw [hn] at h
    cases h
  | some n => rw [closeAttribute_append hn]

theorem attributeGroup_le_length {u : List Char} (h : (attributeGroup u).isStuck = false) :
    (attributeGroup u).more ≤ u.length + 1 := by
  unfold attributeGroup at h ⊢
  cases hn : closeAttribute {} u with
  | none =>
    rw [hn] at h
    cases h
  | some n => exact Nat.succ_le_succ (closeAttribute_le_length hn)

theorem attributeGroup_of_append {u y : List Char} (h : (attributeGroup (u ++ y)).isStuck = false)
    (hle : (attributeGroup (u ++ y)).more ≤ u.length + 1) :
    attributeGroup u = attributeGroup (u ++ y) := by
  unfold attributeGroup at h hle ⊢
  cases hn : closeAttribute {} (u ++ y) with
  | none =>
    rw [hn] at h
    cases h
  | some n =>
    rw [hn] at hle
    rw [closeAttribute_of_append hn (Nat.le_of_succ_le_succ hle)]

end CurryGen.Scan

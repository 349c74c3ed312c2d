import CurryGen.Proofs.Token.Cover
import CurryGen.Proofs.Token.Partition
import CurryGen.Proofs.Token.Slice
import CurryGen.Proofs.Token.Woven
import CurryGen.Proofs.Token.Written

/-!
# Texts written for tokens

A text that is written for tokens can leave out some of them, and can add brackets and semicolons of
its own. Apart from those it has no more characters than its tokens: its weight is theirs at most, and
at the same weight it closes no more brackets. If both are the same, so are the texts, bit by bit.

* `Text.Within`, `Text.Level`: a text against the characters of its tokens.
* `Scans.covers_of_weight`: a text of the weight of its tokens has no comments.
* `Covers.split`: tokens with as many characters as the front of a text cover this front.
* `Token.closes_eq_of_balanced`: balanced tokens without weight close the brackets that they open.
-/

namespace CurryGen

open Scan

namespace Text

/-! ## Weight -/

def isOpening (c : Char) : Bool := c == '(' || c == '[' || c == '\x7b'

def isClosing (c : Char) : Bool := c == ')' || c == ']' || c == '\x7d'

/-- A bracket or a semicolon. -/
def isLight (c : Char) : Bool := isOpening c || isClosing c || c == ';'

/-- Neither a blank nor a bracket or a semicolon. -/
def isWeighty (c : Char) : Bool := !isSpace c && !isLight c

def weight (cs : List Char) : Nat := cs.countP isWeighty

def opens (cs : List Char) : Nat := cs.countP isOpening

def closes (cs : List Char) : Nat := cs.countP isClosing

def light (cs : List Char) : Nat := cs.countP isLight

variable {u v a b : List Char}

theorem weight_append (u v : List Char) : weight (u ++ v) = weight u + weight v := List.countP_append

theorem opens_append (u v : List Char) : opens (u ++ v) = opens u + opens v := List.countP_append

theorem closes_append (u v : List Char) : closes (u ++ v) = closes u + closes v := List.countP_append

theorem light_cases {c : Char} (h : isLight c = true) :
    c = '(' ∨ c = '[' ∨ c = '\x7b' ∨ c = ')' ∨ c = ']' ∨ c = '\x7d' ∨ c = ';' := by
  simpa [isLight, isOpening, isClosing, or_assoc] using h

theorem space_cases {c : Char} (h : isSpace c = true) :
    c = ' ' ∨ c = '\t' ∨ c = '\r' ∨ c = '\n' ∨ c = '\x0c' := by
  simpa [isSpace, or_assoc] using h

theorem isSpace_eq_false_of_isLight {c : Char} (h : isLight c = true) : isSpace c = false := by
  rcases light_cases h with rfl | rfl | rfl | rfl | rfl | rfl | rfl <;> decide

theorem solid_eq (cs : List Char) : solid cs = weight cs + light cs := by
  induction cs with
  | nil => rfl
  | cons c cs ih =>
    unfold solid weight light at ih ⊢
    rw [List.countP_cons, List.countP_cons, List.countP_cons, ih]
    cases hlight : isLight c with
    | true => simp [isWeighty, hlight, isSpace_eq_false_of_isLight hlight]; omega
    | false => cases hspace : isSpace c <;> simp [isWeighty, hlight, hspace]; omega

/-- The text has less weight than its tokens, or the same and closes no more brackets, those that it
opens taken off. -/
def Within (u a : List Char) : Prop :=
  weight u < weight a ∨ weight u = weight a ∧ closes u + opens a ≤ opens u + closes a

/-- The text has the weight of its tokens, and closes as many brackets. -/
def Level (u a : List Char) : Prop :=
  weight u = weight a ∧ closes u + opens a = opens u + closes a

instance (u a : List Char) : Decidable (Within u a) := inferInstanceAs (Decidable (_ ∨ _ ∧ _))

theorem Level.refl (u : List Char) : Level u u := ⟨rfl, Nat.add_comm _ _⟩

theorem Level.within (h : Level u a) : Within u a := .inr ⟨h.1, Nat.le_of_eq h.2⟩

theorem Within.weight_le (h : Within u a) : weight u ≤ weight a :=
  h.elim Nat.le_of_lt fun h => Nat.le_of_eq h.1

theorem Within.append (hu : Within u a) (hv : Within v b) : Within (u ++ v) (a ++ b) := by
  unfold Within at *
  simp only [weight_append, opens_append, closes_append]
  omega

/-- Texts with the same brackets and semicolons. -/
def Alike (u a : List Char) : Prop :=
  light u = light a ∧ opens u = opens a ∧ closes u = closes a

instance (u a : List Char) : Decidable (Alike u a) := inferInstanceAs (Decidable (_ ∧ _ ∧ _))

theorem Alike.trans (h : Alike u v) (h' : Alike v a) : Alike u a :=
  ⟨h.1.trans h'.1, h.2.1.trans h'.2.1, h.2.2.trans h'.2.2⟩

theorem Alike.within (h : Alike u a) (hweight : weight u ≤ weight a) : Within u a := by
  obtain ⟨-, hopens, hcloses⟩ := h
  unfold Within
  omega

/-- A text of weighty characters only. -/
theorem alike_nil_of_isWeighty (h : ∀ c ∈ u, isWeighty c = true) :
    weight u = u.length ∧ Alike u [] := by
  have hlight : ∀ c ∈ u, isLight c = false := fun c hc => by
    have := h c hc
    simp only [isWeighty, Bool.and_eq_true, Bool.not_eq_true'] at this
    exact this.2
  refine ⟨List.countP_eq_length.2 h, ?_, ?_, ?_⟩ <;> refine List.countP_eq_zero.2 fun c hc => ?_ <;>
    have := hlight c hc <;> simp_all [isLight]

/-- Of two texts that are level together both are level. -/
theorem Level.split (h : Level (u ++ v) (a ++ b)) (hu : Within u a) (hv : Within v b) :
    Level u a ∧ Level v b := by
  unfold Level Within at *
  simp only [weight_append, opens_append, closes_append] at h
  omega

end Text

namespace Scan

open Text Token

/-! ## Covered texts -/

/-- Only symbols begin with a bracket or a semicolon. -/
theorem found_of_isLight {c : Char} (h : isLight c = true) : found c = symbolAt c := by
  rcases light_cases h with rfl | rfl | rfl | rfl | rfl | rfl | rfl <;> rfl

theorem isWeighty_of_skipped {c : Char} {cs : List Char} {k : Nat} (hc : isSpace c = false)
    (h : found c cs = .skipped k) : isWeighty c = true := by
  cases hlight : isLight c with
  | true =>
    rw [found_of_isLight hlight] at h
    exact absurd h symbolAt_ne_skipped
  | false => simp [isWeighty, hc, hlight]

theorem isWeighty_of_found {c : Char} {cs : List Char} {kind : Token.Kind} {k : Nat}
    (h : found c cs = .token kind k) (hkind : kind ≠ .symbol) : isWeighty c = true := by
  cases hlight : isLight c with
  | true =>
    rw [found_of_isLight hlight] at h
    exact absurd (symbolAt_eq_token_iff.1 h).1 hkind
  | false => simp [isWeighty, isSpace_of_found h, hlight]

/-- A token that is no symbol has weight. -/
theorem Stands.weight_pos {t : Token} {y : List Char} (h : Stands t y) (ht : t.kind ≠ .symbol) :
    0 < weight t.text.toList := by
  obtain ⟨c, w, htext, hfound⟩ := h
  refine List.countP_pos_iff.2 ⟨c, ?_, isWeighty_of_found hfound ht⟩
  rw [htext]
  exact List.mem_cons_self

/-- Every character of a name has weight. -/
theorem Stands.isWeighty_of_name {t : Token} (h : Stands t []) (ht : t.kind = .name) :
    ∀ c ∈ t.text.toList, isWeighty c = true := by
  obtain ⟨c, w, htext, hfound⟩ := h
  rw [ht, List.append_nil] at hfound
  rw [htext]
  refine List.forall_mem_cons.2 ⟨isWeighty_of_found hfound (by decide), fun d hd => ?_⟩
  by_contra hweight
  have hstop : isStop d = true ∧ isSign d = false := by
    simp only [isWeighty, Bool.and_eq_true, Bool.not_eq_true', not_and, Bool.not_eq_false] at hweight
    cases hspace : isSpace d with
    | true => rcases space_cases hspace with rfl | rfl | rfl | rfl | rfl <;> decide
    | false =>
      rcases light_cases (hweight hspace) with rfl | rfl | rfl | rfl | rfl | rfl | rfl <;> decide
  exact notMem_of_found hstop.1 hstop.2 hfound (by decide) (by decide) (by decide) hd

/-- The tokens of a text that begins with a symbol which begins no longer one. -/
theorem Covers.head?_of_solitary {s : String} (hs : s ∈ solitary) {y : List Char} {ts : List Token}
    (h : Covers (s.toList ++ y) ts) : ts.head? = some (.symbol s) := by
  obtain ⟨c, w, htext, hfound⟩ := stands_solitary hs y
  have htext : s.toList = c :: w := htext
  rw [htext] at h
  obtain ⟨us, rfl, -⟩ := h.scans.of_found hfound
  rw [← htext, String.ofList_toList]
  rfl

theorem Scans.weight_le {u : List Char} {ts : List Token} (h : Scans u ts) :
    weight (texts ts) ≤ weight u := by
  induction h with
  | nil => exact Nat.le_refl _
  | @space c cs ts _ _ ih =>
    rw [← List.singleton_append, weight_append]
    omega
  | @skip c w rest ts _ _ _ ih =>
    rw [← List.cons_append, weight_append]
    omega
  | @token c w rest kind ts _ _ ih =>
    rw [← List.cons_append, weight_append, texts_cons, weight_append, String.toList_ofList]
    omega

/-- A text of the weight of its tokens has no comments. -/
theorem Scans.covers_of_weight {u : List Char} {ts : List Token} (h : Scans u ts)
    (hle : weight u ≤ weight (texts ts)) : Covers u ts := by
  induction h with
  | nil => exact .nil
  | @space c cs ts hc _ ih =>
    have hweight : isWeighty c = false := by simp [isWeighty, hc]
    rw [weight, List.countP_cons_of_neg (by simp [hweight])] at hle
    exact .space hc (ih hle)
  | @skip c w rest ts hc hfound hrest ih =>
    have hrest := hrest.weight_le
    have hweight := isWeighty_of_skipped hc hfound
    rw [← List.cons_append, weight_append, weight, List.countP_cons_of_pos hweight] at hle
    omega
  | @token c w rest kind ts hfound _ ih =>
    rw [← List.cons_append, weight_append, texts_cons, weight_append, String.toList_ofList] at hle
    exact .token hfound (ih (by omega))

/-- A token does not end with blanks. -/
theorem Stands.solid_pos_of_append {t : Token} (h : Stands t []) {u z : List Char}
    (htext : t.text.toList = u ++ z) (hz : z ≠ []) : 0 < Text.solid z := by
  have hlast := h.endsNonblank
  rw [htext, Statement.endsNonblank, List.getLast?_append_of_ne_nil u hz] at hlast
  obtain ⟨d, hd, hblank⟩ := (Option.any_eq_true _ _).1 hlast
  refine List.countP_pos_iff.2 ⟨d, List.mem_of_getLast? hd, ?_⟩
  cases hspace : isSpace d with
  | true =>
    rcases space_cases hspace with rfl | rfl | rfl | rfl | rfl <;> exact absurd hblank (by decide)
  | false => rfl

theorem Stands.solid_pos {t : Token} (h : Stands t []) : 0 < Text.solid t.text.toList := by
  refine h.solid_pos_of_append (u := []) rfl ?_
  obtain ⟨c, w, htext, -⟩ := h
  simp [htext]

theorem Covers.level {u : List Char} {ts : List Token} (h : Covers u ts) : Level u (texts ts) := by
  induction h with
  | nil => exact .refl []
  | @space c cs ts hc _ ih =>
    have hspace : weight [c] = 0 ∧ opens [c] = 0 ∧ closes [c] = 0 := by
      rcases space_cases hc with rfl | rfl | rfl | rfl | rfl <;> decide
    rw [← List.singleton_append]
    unfold Level at ih ⊢
    simp only [weight_append, opens_append, closes_append]
    omega
  | @token c w rest kind ts _ _ ih =>
    rw [← List.cons_append, texts_cons, String.toList_ofList]
    unfold Level at ih ⊢
    simp only [weight_append, opens_append, closes_append]
    omega

/-- The first token of a text that begins with a weighty character has weight. -/
theorem Covers.weight_pos_of_head {c : Char} {u : List Char} {t : Token} {ts : List Token}
    (h : Covers (c :: u) (t :: ts)) (hc : isWeighty c = true) : 0 < weight t.text.toList := by
  generalize hvs : t :: ts = vs at h
  cases h with
  | space hspace => simp [isWeighty, hspace] at hc
  | token hfound _ =>
    obtain ⟨rfl, -⟩ := List.cons.inj hvs
    rw [String.toList_ofList]
    exact List.countP_pos_iff.2 ⟨c, List.mem_cons_self, hc⟩

/-- A text that begins with the first of its tokens goes on with the others. -/
theorem Covers.of_token {t : Token} {u : List Char} {ts : List Token}
    (h : Covers (t.text.toList ++ u) (t :: ts)) : Stands t u ∧ Covers u ts := by
  obtain ⟨d, z, hd, hfound⟩ := h.scans.stands t List.mem_cons_self
  have hspace := isSpace_of_found hfound
  generalize hv : t.text.toList ++ u = v at h
  generalize hvs : t :: ts = vs at h
  cases h with
  | nil => cases hvs
  | space hc =>
    rw [hd] at hv
    obtain ⟨rfl, -⟩ := List.cons.inj hv
    rw [hspace] at hc
    cases hc
  | @token c w rest kind ts' hfound hrest =>
    obtain ⟨rfl, rfl⟩ := List.cons.inj hvs
    rw [String.toList_ofList, ← List.cons_append] at hv
    obtain rfl := List.append_cancel_left hv
    exact ⟨stands_ofList hfound, hrest⟩

/-- Tokens with as many characters as the front of a text cover this front. -/
theorem Covers.split {u y : List Char} {ts us : List Token} (h : Covers (u ++ y) (ts ++ us))
    (hsolid : Text.solid u = Token.solid ts) : Covers u ts ∧ Covers y us := by
  have hstands := h.scans.stands
  generalize hv : u ++ y = v at h
  generalize hvs : ts ++ us = vs at h hstands
  induction h generalizing u ts with
  | nil =>
    obtain ⟨rfl, rfl⟩ := List.append_eq_nil_iff.1 hv
    obtain ⟨rfl, rfl⟩ := List.append_eq_nil_iff.1 hvs
    exact ⟨.nil, .nil⟩
  | @space c cs vs hc hcs ih =>
    cases u with
    | nil =>
      obtain rfl : y = c :: cs := hv
      cases ts with
      | nil =>
        obtain rfl : us = vs := hvs
        exact ⟨.nil, .space hc hcs⟩
      | cons t ts =>
        have ht := (hstands t (by rw [← hvs]; exact List.mem_cons_self)).solid_pos
        have hnil : Text.solid [] = 0 := rfl
        rw [Token.solid_cons] at hsolid
        omega
    | cons d u =>
      obtain ⟨rfl, rfl⟩ := List.cons.inj hv
      rw [solid_space hc] at hsolid
      obtain ⟨hu, hy⟩ := ih hsolid rfl hvs hstands
      exact ⟨.space hc hu, hy⟩
  | @token c w rest kind vs hfound hrest ih =>
    cases ts with
    | nil =>
      cases u with
      | nil =>
        obtain rfl : y = c :: (w ++ rest) := hv
        obtain rfl : us = _ :: vs := hvs
        exact ⟨.nil, .token hfound hrest⟩
      | cons d u =>
        obtain ⟨rfl, -⟩ := List.cons.inj hv
        rw [Text.solid_cons (isSpace_of_found hfound)] at hsolid
        cases hsolid
    | cons t ts =>
      obtain ⟨rfl, htail⟩ := List.cons.inj hvs
      rw [Token.solid_cons, String.toList_ofList] at hsolid
      obtain ⟨v, rfl⟩ : ∃ v, u = c :: w ++ v := by
        rw [← List.cons_append] at hv
        rcases List.append_eq_append_iff.1 hv with ⟨z, htext, rfl⟩ | ⟨v, rfl, -⟩
        · -- the text ends within the token, and a token does not end with blanks
          rcases List.eq_nil_or_concat z with rfl | ⟨z', d, rfl⟩
          · exact ⟨[], by rw [htext, List.append_nil, List.append_nil]⟩
          · have hpos := (hstands _ List.mem_cons_self).solid_pos_of_append
              (String.toList_ofList.trans htext) (by simp)
            rw [htext, Text.solid_append] at hsolid
            omega
        · exact ⟨v, rfl⟩
      obtain rfl : v ++ y = rest := by simpa using hv
      rw [Text.solid_append] at hsolid
      obtain ⟨hu, hy⟩ := ih (Nat.add_left_cancel hsolid) rfl htail
        fun t ht => hstands t (List.mem_cons_of_mem _ ht)
      exact ⟨.token (found_within hfound rfl rfl) hu, hy⟩

end Scan

namespace Token

open Text

/-! ## Brackets -/

/-- What has no weight is a bracket or a semicolon. -/
theorem text_of_weightless {t : Token} (h : Stands t []) (hweight : weight t.text.toList = 0) :
    t.kind = .symbol ∧ t.text ∈ ["(", "[", "\x7b", ")", "]", "\x7d", ";"] := by
  have hkind : t.kind = .symbol := by
    by_contra hkind
    have := h.weight_pos hkind
    omega
  have htable : ∀ s ∈ symbols, weight s.toList = 0 →
      s ∈ ["(", "[", "\x7b", ")", "]", "\x7d", ";"] := by
    decide
  exact ⟨hkind, htable _ (h.mem_symbols hkind) hweight⟩

theorem weight_texts_cons {t : Token} {ts : List Token} (h : weight (texts (t :: ts)) = 0) :
    weight t.text.toList = 0 ∧ weight (texts ts) = 0 := by
  rw [texts_cons, weight_append] at h
  omega

/-- Balanced tokens without weight close the brackets that they open. -/
theorem closes_eq_of_balanced {ts : List Token} {k : Nat} (hts : ∀ t ∈ ts, Stands t [])
    (hweight : weight (texts ts) = 0) (h : balanced k ts = true) :
    closes (texts ts) = k + opens (texts ts) := by
  induction ts generalizing k with
  | nil =>
    obtain rfl : k = 0 := eq_of_beq h
    rfl
  | cons t ts ih =>
    obtain ⟨ht, hts⟩ := List.forall_mem_cons.1 hts
    obtain ⟨hfirst, hrest⟩ := weight_texts_cons hweight
    obtain ⟨hclose, hbalanced⟩ := balanced_cons h
    have ih := ih hts hrest hbalanced
    obtain ⟨hkind, htext⟩ := text_of_weightless ht hfirst
    rw [texts_cons, closes_append, opens_append]
    obtain ⟨hopens, hcloses⟩ : opens t.text.toList = (if t.isOpen then 1 else 0) ∧
        closes t.text.toList = if t.isClose then 1 else 0 := by
      simp only [isOpen, isClose, hkind, beq_self_eq_true, Bool.true_and]
      revert htext
      generalize t.text = text
      revert text
      decide
    rw [depthAfter] at ih
    cases hopen : t.isOpen with
    | true =>
      have hclose := isClose_of_isOpen hopen
      simp [hopen, hclose] at hopens hcloses ih
      omega
    | false =>
      cases hclose' : t.isClose with
      | true =>
        simp [hopen, hclose'] at hopens hcloses ih hclose
        omega
      | false =>
        simp [hopen, hclose'] at hopens hcloses ih
        omega

/-- A token that is no bracket changes nothing at the end. -/
theorem balanced_concat {t : Token} (ht : t.kind ≠ .symbol) (ts : List Token) (k : Nat) :
    balanced k (ts ++ [t]) = balanced k ts := by
  have hopen : t.isOpen = false := by simp [isOpen, ht]
  have hclose : t.isClose = false := by simp [isClose, ht]
  induction ts generalizing k with
  | nil => simp [balanced, depthAfter, hopen, hclose]
  | cons u ts ih => rw [List.cons_append, balanced, balanced, ih]

/-- What is left of balanced tokens closes what has been opened before. -/
theorem exists_balanced_of_append {a b : List Token} {k : Nat} (h : balanced k (a ++ b) = true) :
    ∃ j, balanced j b = true := by
  induction a generalizing k with
  | nil => exact ⟨k, h⟩
  | cons t a ih => exact ih (balanced_cons h).2

end Token

end CurryGen

import CurryGen.Proofs.Token.Bracket
import Mathlib.Data.List.Basic

/-!
# Separators outside brackets

Balanced tokens with no separator outside their brackets stay together when the run around them is
cut at the separator.

* `Token.uncut`: whether no token outside brackets is the separator.
* `Run.map_tokens_splitTopLevel`: pieces that are joined by separators are cut apart again.
* `Run.breakTopLevel?_append`: a run is broken at its first separator.
-/

namespace CurryGen

namespace Token

section

variable {s : String} {t : Token}

theorem eq_of_isSymbol (h : t.isSymbol s = true) : t = .symbol s := by
  obtain ⟨kind, text⟩ := t
  simp only [isSymbol, Bool.and_eq_true, beq_iff_eq] at h
  rw [h.1, h.2]
  rfl

theorem isSymbol_of_ne_symbol (h : t.kind ≠ .symbol) (s : String) : t.isSymbol s = false := by
  simp [isSymbol, h]

theorem kind_of_isKeywordIn {words : List String} (h : t.isKeywordIn words = true) :
    t.kind = .name := by
  simp only [isKeywordIn, Bool.and_eq_true, beq_iff_eq] at h
  exact h.1

/-- A keyword is none of the words of a list that it is not in. -/
theorem isKeywordIn_eq_false {word : String} {words : List String} (h : t.isKeyword word = true)
    (hwords : word ∉ words) : t.isKeywordIn words = false := by
  simp only [isKeyword, isKeywordIn, Bool.and_eq_true, List.contains_iff_mem,
    List.mem_singleton] at h
  rw [isKeywordIn, h.2]
  simp [hwords]

end

/-- Whether no token outside brackets is the symbol `text`, counting depth from `depth`. -/
def uncut (text : String) (depth : Nat) : List Token → Bool
  | [] => true
  | t :: ts => !t.cutsAt text depth && uncut text (t.depthAfter depth) ts

section
variable {text : String} {a b : List Token} {k : Nat}

theorem uncut_cons {t : Token} (h : uncut text k (t :: a) = true) :
    t.cutsAt text k = false ∧ uncut text (t.depthAfter k) a = true := by
  rw [uncut, Bool.and_eq_true, Bool.not_eq_true'] at h
  exact h

theorem uncut_append (h : balanced k a = true) :
    uncut text k (a ++ b) = (uncut text k a && uncut text 0 b) := by
  induction a generalizing k with
  | nil =>
    obtain rfl : k = 0 := eq_of_beq h
    rfl
  | cons t a ih => rw [List.cons_append, uncut, uncut, ih (balanced_cons h).2, Bool.and_assoc]

/-- Inside brackets nothing is cut. -/
theorem uncut_nested (h : balanced k a = true) (d : Nat) (b : List Token) :
    uncut text (k + (d + 1)) (a ++ b) = uncut text (d + 1) b := by
  induction a generalizing k with
  | nil =>
    obtain rfl : k = 0 := eq_of_beq h
    rw [Nat.zero_add, List.nil_append]
  | cons t a ih =>
    obtain ⟨hclose, hrest⟩ := balanced_cons h
    have hcut : t.cutsAt text (k + (d + 1)) = false := rfl
    rw [List.cons_append, uncut, hcut, depthAfter_add hclose, ih hrest]
    rfl

end

/-! ## Groups -/

theorem isClose_of_isOpen {t : Token} (h : t.isOpen = true) : t.isClose = false := by
  simp only [isOpen, Bool.and_eq_true, List.contains_iff_mem, List.mem_cons, List.not_mem_nil,
    or_false] at h
  obtain ⟨-, h | h | h⟩ := h <;> simp [isClose, h]

section
variable {opening close : Token} {a : List Token}

theorem balanced_group (hopen : opening.isOpen = true) (hclose : close.isClose = true)
    (h : balanced 0 a = true) : balanced 0 (opening :: (a ++ [close])) = true := by
  have hnested := balanced_append h 1 (b := [close])
  rw [Nat.zero_add] at hnested
  have hend : balanced 1 [close] = true := by
    have hno : close.isOpen = false := by
      rw [← Bool.not_eq_true]
      intro hboth
      rw [isClose_of_isOpen hboth] at hclose
      cases hclose
    simp [balanced, depthAfter, hclose, hno]
  rw [balanced, isClose_of_isOpen hopen, depthAfter, if_pos hopen, hnested, hend]
  rfl

theorem uncut_group (text : String) (hopen : opening.isOpen = true) (h : balanced 0 a = true) :
    uncut text 0 (opening :: (a ++ [close])) = true := by
  have hfirst : opening.cutsAt text 0 = false := by simp [cutsAt, hopen]
  have hlast : close.cutsAt text 1 = false := rfl
  have hnested : uncut text (0 + (0 + 1)) (a ++ [close]) = uncut text (0 + 1) [close] :=
    uncut_nested h 0 [close]
  rw [Nat.zero_add] at hnested
  rw [uncut, hfirst, depthAfter, if_pos hopen, hnested, uncut, hlast]
  rfl

end

end Token

namespace Run

open Token

variable {text : String}

/-! ## Pieces -/

theorem piecesFrom_of_uncut {depth : Nat} {ts : Run} (h : uncut text depth ts.tokens = true) :
    piecesFrom text depth ts = [ts] := by
  induction ts generalizing depth with
  | nil => rfl
  | cons t ts ih =>
    obtain ⟨hcut, hrest⟩ := uncut_cons h
    rw [piecesFrom, hcut, ih hrest]
    rfl

/-- Balanced tokens without the separator outside brackets. -/
structure Piece (text : String) (p : List Token) : Prop where
  balanced : Token.balanced 0 p = true
  uncut : Token.uncut text 0 p = true

namespace Piece

theorem singleton {t : Token} (hopen : t.isOpen = false) (hclose : t.isClose = false)
    (ht : t.isSymbol text = false) : Piece text [t] where
  balanced := by simp [Token.balanced, depthAfter, hopen, hclose]
  uncut := by simp [Token.uncut, cutsAt, ht]

theorem append {a b : List Token} (ha : Piece text a) (hb : Piece text b) : Piece text (a ++ b) where
  balanced := by
    have happend := balanced_append ha.balanced 0 (b := b)
    rw [Nat.zero_add] at happend
    rw [happend, hb.balanced]
  uncut := by rw [uncut_append ha.balanced, ha.uncut, hb.uncut, Bool.and_self]

theorem cons {t : Token} {ts : List Token} (ht : Piece text [t]) (hts : Piece text ts) :
    Piece text (t :: ts) :=
  ht.append hts

theorem of_forall {ts : List Token} (h : ∀ t ∈ ts, Piece text [t]) : Piece text ts := by
  induction ts with
  | nil => exact ⟨rfl, rfl⟩
  | cons t ts ih =>
    obtain ⟨ht, hts⟩ := List.forall_mem_cons.1 h
    exact ht.cons (ih hts)

theorem group {opening close : Token} (hopen : opening.isOpen = true) (hclose : close.isClose = true)
    {a : List Token} (h : Token.balanced 0 a = true) : Piece text (opening :: (a ++ [close])) where
  balanced := balanced_group hopen hclose h
  uncut := uncut_group text hopen h

end Piece

theorem balanced_intercalate {separator : Token} (hopen : separator.isOpen = false)
    (hclose : separator.isClose = false) {ps : List (List Token)}
    (h : ∀ p ∈ ps, balanced 0 p = true) : balanced 0 ([separator].intercalate ps) = true := by
  induction ps with
  | nil => rfl
  | cons p ps ih =>
    obtain ⟨hp, hps⟩ := List.forall_mem_cons.1 h
    cases ps with
    | nil =>
      rw [List.intercalate_singleton]
      exact hp
    | cons q ps =>
      have happend := balanced_append hp 0 (b := separator :: [separator].intercalate (q :: ps))
      rw [Nat.zero_add] at happend
      rw [List.intercalate_cons_cons, List.append_assoc, List.singleton_append, happend, balanced,
        hclose, depthAfter, hopen, hclose]
      exact ih hps

theorem filter_code_intercalate {separator : Token} (h : separator.isDoc = false)
    (ps : List (List Token)) (hps : ∀ p ∈ ps, p.filter (!·.isDoc) = p) :
    ([separator].intercalate ps).filter (!·.isDoc) = [separator].intercalate ps := by
  induction ps with
  | nil => rfl
  | cons p ps ih =>
    obtain ⟨hp, hps⟩ := List.forall_mem_cons.1 hps
    cases ps with
    | nil => simpa using hp
    | cons q qs =>
      rw [List.intercalate_cons_cons, List.filter_append, List.filter_append, hp, ih hps,
        List.filter_cons_of_pos (by simp [h]), List.filter_nil]

/-- Pieces that are joined by a separator are cut apart again. -/
theorem map_tokens_piecesFrom {separator : Token} (hseparator : separator.cutsAt text 0 = true)
    {p : List Token} {ps : List (List Token)} (hps : ∀ q ∈ p :: ps, Piece text q) {ts : Run}
    (hts : ts.tokens = [separator].intercalate (p :: ps)) :
    (piecesFrom text 0 ts).map tokens = p :: ps := by
  induction ps generalizing p ts with
  | nil =>
    rw [List.intercalate_singleton] at hts
    have hp := (hps p List.mem_cons_self).uncut
    rw [← hts] at hp
    rw [piecesFrom_of_uncut hp, List.map_singleton, hts]
  | cons q ps ih =>
    obtain ⟨hp, hrest⟩ := List.forall_mem_cons.1 hps
    rw [List.intercalate_cons_cons, List.append_assoc] at hts
    obtain ⟨a, ts, rfl, rfl, hjoined⟩ := exists_append_of_tokens hts
    obtain ⟨i, ts, rfl, hrest'⟩ := exists_cons_of_tokens hjoined
    rw [piecesFrom_append hp.balanced hseparator, List.map_append, ih hrest hrest',
      piecesFrom_of_uncut hp.uncut]
    rfl

theorem map_tokens_dropEmptyLast (pieces : List Run) :
    (dropEmptyLast pieces).map tokens =
      if (pieces.map tokens).getLast? = some [] then (pieces.map tokens).dropLast
      else pieces.map tokens := by
  unfold dropEmptyLast
  rw [List.getLast?_map]
  have hempty : pieces.getLast? = some [] ↔ pieces.getLast?.map tokens = some [] := by
    cases pieces.getLast? with
    | none => simp
    | some last => simp [tokens]
  simp only [← hempty]
  split
  · exact List.map_dropLast
  · rfl

theorem map_tokens_splitTopLevel {separator : Token} (hseparator : separator.cutsAt text 0 = true)
    {ps : List (List Token)} (hps : ∀ p ∈ ps, Piece text p) (hlast : ps.getLast? ≠ some [])
    {ts : Run} (hts : ts.tokens = [separator].intercalate ps) :
    (ts.splitTopLevel text).map tokens = ps := by
  rw [splitTopLevel, map_tokens_dropEmptyLast]
  cases ps with
  | nil =>
    obtain rfl : ts = [] := List.map_eq_nil_iff.1 hts
    rfl
  | cons p ps => rw [map_tokens_piecesFrom hseparator hps hts, if_neg hlast]

theorem intercalate_concat_nil (separator : Token) {ps : List (List Token)} (h : ps ≠ []) :
    [separator].intercalate (ps ++ [[]]) = [separator].intercalate ps ++ [separator] := by
  induction ps with
  | nil => exact absurd rfl h
  | cons p ps ih =>
    cases ps with
    | nil => simp [List.intercalate_cons_cons]
    | cons q ps =>
      rw [List.cons_append, List.cons_append, List.intercalate_cons_cons, ← List.cons_append,
        ih (List.cons_ne_nil q ps), List.intercalate_cons_cons, ← List.append_assoc]

/-- A separator after the last piece begins no other. -/
theorem map_tokens_splitTopLevel_trailing {separator : Token}
    (hseparator : separator.cutsAt text 0 = true) {ps : List (List Token)}
    (hps : ∀ p ∈ ps, Piece text p) (hne : ps ≠ []) {ts : Run}
    (hts : ts.tokens = [separator].intercalate ps ++ [separator]) :
    (ts.splitTopLevel text).map tokens = ps := by
  have hall : ∀ p ∈ ps ++ [[]], Piece text p := by
    refine List.forall_mem_append.2 ⟨hps, ?_⟩
    rw [List.forall_mem_singleton]
    exact ⟨rfl, rfl⟩
  have hjoined : ts.tokens = [separator].intercalate (ps ++ [[]]) := by
    rw [intercalate_concat_nil separator hne, hts]
  rw [splitTopLevel, map_tokens_dropEmptyLast]
  obtain ⟨p, rest, hcons⟩ := List.exists_cons_of_ne_nil (List.append_ne_nil_of_right_ne_nil ps
    (List.cons_ne_nil ([] : List Token) []))
  rw [hcons] at hall hjoined
  rw [map_tokens_piecesFrom hseparator hall hjoined, ← hcons, List.getLast?_concat, if_pos rfl,
    List.dropLast_concat]

theorem mem_of_mem_splitTopLevel {ts piece : Run}
    (h : piece ∈ ts.splitTopLevel text) {t : Token} (ht : t ∈ piece.tokens) :
    t ∈ ts.tokens := by
  have hpiece := (flatten_piecesFrom_sublist text 0 ts).map Placed.toToken
  obtain ⟨placed, hplaced, rfl⟩ := List.mem_map.1 ht
  exact hpiece.subset (List.mem_map_of_mem
    (List.mem_flatten_of_mem (mem_of_mem_dropEmptyLast h) hplaced))

/-! ## Two sides -/

theorem breakFrom_of_uncut {depth : Nat} {ts : Run} (h : uncut text depth ts.tokens = true) :
    breakFrom text depth ts = none := by
  induction ts generalizing depth with
  | nil => rfl
  | cons t ts ih =>
    obtain ⟨hcut, hrest⟩ := uncut_cons h
    rw [breakFrom, hcut, ih hrest]
    rfl

theorem breakFrom_append {depth : Nat} {a : Run} (hbalanced : balanced depth a.tokens = true)
    (h : uncut text depth a.tokens = true) {t : Placed} (ht : t.cutsAt text 0 = true) (b : Run) :
    breakFrom text depth (a ++ t :: b) = some (a, b) := by
  induction a generalizing depth with
  | nil =>
    obtain rfl : depth = 0 := eq_of_beq hbalanced
    rw [List.nil_append, breakFrom, if_pos ht]
  | cons u a ih =>
    obtain ⟨hcut, hrest⟩ := uncut_cons h
    rw [List.cons_append, breakFrom, hcut, ih (balanced_cons hbalanced).2 hrest]
    rfl

/-- A run is broken at the first separator outside brackets. -/
theorem breakTopLevel?_append {a : Run} (h : Piece text a.tokens) {t : Placed}
    (ht : t.cutsAt text 0 = true) (b : Run) : (a ++ t :: b).breakTopLevel? text = some (a, b) :=
  breakFrom_append h.balanced h.uncut ht b

theorem breakTopLevel?_of_uncut {ts : Run} (h : uncut text 0 ts.tokens = true) :
    ts.breakTopLevel? text = none :=
  breakFrom_of_uncut h

end Run

end CurryGen

import CurryGen.Proofs.Token.Bracket
import CurryGen.Proofs.Token.Reading

/-!
# Texts without comments

Tokens that cover a text leave nothing but blanks between them. A count of the characters that are no
blanks shows it, and a text that is covered has the same tokens before a comma or a bracket.

* `Scans.covers`: tokens with as many characters as the text cover it.
* `Covers.append_separator`: what is covered has the same tokens before a separator.
-/

namespace CurryGen

open Scan

/-- The number of characters that are no blanks between tokens. -/
def Text.solid (cs : List Char) : Nat := cs.countP (!isSpace ·)

/-- The number of such characters in the texts of tokens. -/
def Token.solid (ts : List Token) : Nat := Text.solid (ts.flatMap (·.text.toList))

namespace Text

theorem solid_append (u v : List Char) : solid (u ++ v) = solid u + solid v := List.countP_append

theorem solid_space {c : Char} (hc : isSpace c = true) (cs : List Char) :
    solid (c :: cs) = solid cs :=
  List.countP_cons_of_neg (by simp [hc])

theorem solid_cons {c : Char} (hc : isSpace c = false) (cs : List Char) :
    solid (c :: cs) = solid cs + 1 :=
  List.countP_cons_of_pos (by simp [hc])

end Text

namespace Token

theorem solid_cons (t : Token) (ts : List Token) :
    solid (t :: ts) = Text.solid t.text.toList + solid ts := by
  simp [solid, Text.solid_append]

theorem solid_append (ts us : List Token) : solid (ts ++ us) = solid ts + solid us := by
  simp [solid, Text.solid_append]

end Token

namespace Scan

open Text

/-- The tokens of a text with nothing but blanks between them. -/
inductive Covers : List Char → List Token → Prop
  | nil : Covers [] []
  | space {c : Char} {cs : List Char} {ts : List Token} :
      isSpace c = true → Covers cs ts → Covers (c :: cs) ts
  | token {c : Char} {w rest : List Char} {kind : Token.Kind} {ts : List Token} :
      found c (w ++ rest) = .token kind w.length → Covers rest ts →
      Covers (c :: (w ++ rest)) (⟨kind, String.ofList (c :: w)⟩ :: ts)

theorem Covers.scans {u : List Char} {ts : List Token} (h : Covers u ts) : Scans u ts := by
  induction h with
  | nil => exact .nil
  | space hc _ ih => exact .space hc ih
  | token hfound _ ih => exact .token hfound ih

theorem Scans.solid_le {u : List Char} {ts : List Token} (h : Scans u ts) :
    Token.solid ts ≤ solid u := by
  induction h with
  | nil => exact Nat.le_refl _
  | space hc _ ih => rwa [solid_space hc]
  | @skip c w rest ts _ _ _ ih =>
    rw [← List.cons_append, solid_append]
    omega
  | @token c w rest kind ts _ _ ih =>
    rw [← List.cons_append, solid_append, Token.solid_cons, String.toList_ofList]
    omega

/-- Tokens with as many characters as the text leave none for comments. -/
theorem Scans.covers {u : List Char} {ts : List Token} (h : Scans u ts)
    (hle : solid u ≤ Token.solid ts) : Covers u ts := by
  induction h with
  | nil => exact .nil
  | space hc _ ih =>
    rw [solid_space hc] at hle
    exact .space hc (ih hle)
  | @skip c w rest ts hc _ hrest ih =>
    have := hrest.solid_le
    rw [← List.cons_append, solid_append, solid_cons hc] at hle
    omega
  | @token c w rest kind ts hfound _ ih =>
    rw [← List.cons_append, solid_append, Token.solid_cons, String.toList_ofList] at hle
    exact .token hfound (ih (by omega))

theorem Covers.solid_eq {u : List Char} {ts : List Token} (h : Covers u ts) :
    solid u = Token.solid ts := by
  induction h with
  | nil => rfl
  | space hc _ ih => rwa [solid_space hc]
  | @token c w rest kind ts _ _ ih =>
    rw [← List.cons_append, solid_append, Token.solid_cons, String.toList_ofList, ih]

theorem Covers.filter_eq {u : List Char} {ts : List Token} (h : Covers u ts) :
    u.filter (!isSpace ·) = (ts.flatMap (·.text.toList)).filter (!isSpace ·) := by
  induction h with
  | nil => rfl
  | space hc _ ih => rwa [List.filter_cons_of_neg (by simp [hc])]
  | @token c w rest kind ts _ _ ih =>
    rw [← List.cons_append, List.filter_append, List.flatMap_cons, List.filter_append, ih,
      String.toList_ofList]

/-- What is covered has the same tokens before a separator. -/
theorem Covers.append_separator {u y : List Char} {ts us : List Token} (h : Covers u ts) {d : Char}
    (hd : separates d = true) (hy : Scans (d :: y) us) : Scans (u ++ d :: y) (ts ++ us) := by
  induction h with
  | nil => exact hy
  | space hc _ ih => exact .space hc ih
  | @token c w rest kind ts hfound _ ih =>
    rw [List.cons_append, List.append_assoc]
    refine .token ?_ ih
    rw [← List.append_assoc]
    exact found_append_separator hd hfound y

theorem Covers.append {u y : List Char} {ts us : List Token} (h : Covers u ts) {d : Char}
    (hd : separates d = true) (hy : Covers (d :: y) us) : Covers (u ++ d :: y) (ts ++ us) := by
  induction h with
  | nil => exact hy
  | space hc _ ih => exact .space hc ih
  | @token c w rest kind ts hfound _ ih =>
    rw [List.cons_append, List.append_assoc]
    refine .token ?_ ih
    rw [← List.append_assoc]
    exact found_append_separator hd hfound y

theorem Stands.covers_append {t : Token} {y : List Char} {ts : List Token} (h : Stands t y)
    (hy : Covers y ts) : Covers (t.text.toList ++ y) (t :: ts) := by
  obtain ⟨c, w, htext, hfound⟩ := h
  have ht : t = ⟨t.kind, String.ofList (c :: w)⟩ := by
    rw [← htext, String.ofList_toList]
  rw [htext, ht]
  exact .token hfound hy

theorem Stands.covers {t : Token} (h : Stands t []) : Covers t.text.toList [t] := by
  have hcovers := h.covers_append .nil
  rwa [List.append_nil] at hcovers

theorem Covers.ne_nil {u : List Char} {ts : List Token} (h : Covers u ts) {c : Char} (hc : c ∈ u)
    (hsolid : isSpace c = false) : ts ≠ [] := by
  rintro rfl
  have hpos : 0 < solid u := List.countP_pos_iff.2 ⟨c, hc, by simp [hsolid]⟩
  rw [h.solid_eq] at hpos
  cases hpos

theorem length_of_isClose {t : Token} (h : t.isClose = true) : t.text.toList.length = 1 := by
  simp only [Token.isClose, Bool.and_eq_true, List.contains_iff_mem, List.mem_cons,
    List.not_mem_nil, or_false] at h
  rcases h.2 with h | h | h <;> rw [h] <;> rfl

/-- Without the bracket at its end a covered text has the tokens before that bracket. -/
theorem Covers.of_concat {u : List Char} {d : Char} {ts : List Token} {t : Token}
    (hd : isSpace d = false) (ht : t.isClose = true) (h : Covers (u ++ [d]) (ts ++ [t])) :
    Covers u ts := by
  generalize hv : u ++ [d] = v at h
  generalize hvs : ts ++ [t] = vs at h
  induction h generalizing u ts with
  | nil => simp at hv
  | @space c cs vs hc _ ih =>
    cases u with
    | nil =>
      obtain ⟨rfl, -⟩ := List.cons.inj hv
      rw [hd] at hc
      cases hc
    | cons e u =>
      obtain ⟨rfl, rfl⟩ := List.cons.inj hv
      exact .space hc (ih rfl hvs)
  | @token c w rest kind vs hfound hrest ih =>
    rcases List.eq_nil_or_concat rest with rfl | ⟨rest, e, rfl⟩
    · -- a bracket is one character long, so it is all of the text
      obtain rfl : vs = [] := by
        cases hrest
        rfl
      have hvs : ts ++ [t] = [] ++ [⟨kind, String.ofList (c :: w)⟩] := hvs
      obtain ⟨rfl, htok⟩ := List.append_inj' hvs rfl
      have hlength := length_of_isClose ht
      rw [(List.cons.inj htok).1, String.toList_ofList] at hlength
      obtain rfl : u = [] := by
        have hlengths := congrArg List.length hv
        simp only [List.length_append, List.length_cons, List.length_nil] at hlength hlengths
        exact List.eq_nil_of_length_eq_zero (by omega)
      exact .nil
    · rw [List.concat_eq_append] at hv hfound hrest ih
      have hsplit : u ++ [d] = (c :: (w ++ rest)) ++ [e] := by
        rw [hv, List.cons_append, List.append_assoc]
      obtain ⟨rfl, he⟩ := List.append_inj' hsplit rfl
      obtain rfl : d = e := (List.cons.inj he).1
      obtain ⟨vs, t', rfl⟩ :=
        (List.eq_nil_or_concat vs).resolve_left (hrest.ne_nil (by simp) hd)
      rw [List.concat_eq_append] at hvs ih
      have hvs : ts ++ [t] = (⟨kind, String.ofList (c :: w)⟩ :: vs) ++ [t'] := hvs
      obtain ⟨rfl, ht'⟩ := List.append_inj' hvs rfl
      rw [ht'] at ih
      exact .token (found_within hfound rfl rfl) (ih rfl rfl)

end Scan

end CurryGen

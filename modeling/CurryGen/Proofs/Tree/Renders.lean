import CurryGen.Proofs.Token.Weight
import CurryGen.Tree.Print

/-!
# Texts that render tokens

A printer writes two texts for the same tokens: a plain one, and one that qualifies the calls of
library functions. As long as the plain text loses nothing, the other one is the plain text with the
class name before those calls. Both are put together from small texts, so that this is said of small
texts and their tokens, and of what stands before and after them.

* `Run.libraryCalls`, `Text.insertAt`: where library functions are called, and a text with something
  written there.
* `Print.Renders`: two texts for the same tokens. The plain one has no more than the tokens have, and
  where it has as much, the other is qualified just where a library function is called.
* `Print.Renders.append`, `Print.Renders.kept`, `Print.Renders.skip`: rendered tokens side by side,
  tokens that are written as they are, and tokens that are left out.
* `Print.Renders.insertAt`: what this says of a text with all of its tokens.
-/

namespace CurryGen

open Scan Token

/-- A text with `s` before each character at one of the offsets `places`. The first character has the
offset `offset`. -/
def Text.insertAt (places : List Nat) (s : List Char) (offset : Nat) : List Char → List Char
  | [] => []
  | c :: cs =>
    (if places.contains offset then s else []) ++
      c :: insertAt places s (offset + c.utf8Size) cs

/-- The offsets of the names that are library functions being called. `previous` is the token before
the run. -/
def Run.libraryCalls (q : Qualifier) (previous : Option Token) : Run → List Nat
  | [] => []
  | t :: ts =>
    let rest := libraryCalls q (some t.toToken) ts
    if Print.callsLibrary q previous t.toToken (ts.head?.map (·.toToken)) then t.start :: rest else rest

namespace Print

variable {q : Qualifier}

/-! ## Qualified texts -/

/-- A token with the class name before it if it is a library function being called. -/
def marked (q : Qualifier) (previous : Option Token) (t : Token) (next : Option Token) : String :=
  if callsLibrary q previous t next then q.className ++ "::" ++ t.text else t.text

/-- The second text is the first with the class name before the calls of library functions. The
tokens of both stand between `previous` and `next`. -/
inductive Qualifies (q : Qualifier) :
    Option Token → List Token → Option Token → List Char → List Char → Prop
  | nil {previous next : Option Token} : Qualifies q previous [] next [] []
  | space {previous next : Option Token} {ts : List Token} {c : Char} {u v : List Char} :
      isSpace c = true → Qualifies q previous ts next u v →
      Qualifies q previous ts next (c :: u) (c :: v)
  | token {previous next : Option Token} {t : Token} {ts : List Token} {u v : List Char} :
      Qualifies q (some t) ts next u v →
      Qualifies q previous (t :: ts) next (t.text.toList ++ u)
        ((marked q previous t (ts.head?.or next)).toList ++ v)

/-- None of the tokens between `previous` and `next` is a library function being called. -/
def Quiet (q : Qualifier) (previous : Option Token) (next : Option Token) : List Token → Prop
  | [] => True
  | t :: ts => callsLibrary q previous t (ts.head?.or next) = false ∧ Quiet q (some t) next ts

namespace Qualifies

variable {previous next : Option Token} {ts us : List Token} {u v : List Char}

theorem solid_eq (h : Qualifies q previous ts next u v) : Text.solid u = Token.solid ts := by
  induction h with
  | nil => rfl
  | space hc _ ih => rw [Text.solid_space hc, ih]
  | token _ ih => rw [Text.solid_append, Token.solid_cons, ih]

theorem append {u' v' : List Char} (h : Qualifies q previous ts (us.head?.or next) u v)
    (h' : Qualifies q (ts.getLast?.or previous) us next u' v') :
    Qualifies q previous (ts ++ us) next (u ++ u') (v ++ v') := by
  generalize hnext : us.head?.or next = next' at h
  induction h with
  | nil => simpa using h'
  | space hc _ ih => exact .space hc (ih h' hnext)
  | @token previous next' t ts u v _ ih =>
    rw [List.getLast?_cons, Option.some_or] at h'
    have hrest := ih (by cases hlast : ts.getLast? <;> simpa [hlast] using h') hnext
    have htoken : Qualifies q previous (t :: (ts ++ us)) next _ _ := hrest.token
    rw [List.head?_append, Option.or_assoc, hnext] at htoken
    simpa using htoken

/-- Tokens of which none is called are written as they are. -/
theorem of_covers (h : Covers u ts) (hquiet : Quiet q previous next ts) :
    Qualifies q previous ts next u u := by
  induction h generalizing previous with
  | nil => exact .nil
  | space hc _ ih => exact .space hc (ih hquiet)
  | @token c w rest kind ts hfound _ ih =>
    have htoken : Qualifies q previous _ next _ _ := (ih hquiet.2).token
    rw [marked, hquiet.1] at htoken
    simpa using htoken

end Qualifies

/-- The plain text `s` and the qualified text `s'` render the tokens between `previous` and `next`.
What the plain text has beyond the tokens are brackets and semicolons, and no closing brackets. If it
is level with the tokens and is read as the tokens, it is written for each of them. -/
structure Renders (q : Qualifier) (previous : Option Token) (ts : List Token) (next : Option Token)
    (s s' : String) : Prop where
  within : Text.Within s.toList (texts ts)
  qualifies : Text.Level s.toList (texts ts) → ∀ (y : List Char) (us : List Token),
    us.head? = next → Covers (s.toList ++ y) (ts ++ us) →
      Qualifies q previous ts next s.toList s'.toList

namespace Renders

variable {previous next : Option Token} {ts us : List Token} {t : Token} {s s' r r' : String}

/-! ## Side by side -/

theorem nil : Renders q previous [] next "" "" where
  within := .inr ⟨rfl, Nat.le_refl _⟩
  qualifies _ _ _ _ _ := .nil

theorem append (h : Renders q previous ts (us.head?.or next) s s')
    (h' : Renders q (ts.getLast?.or previous) us next r r') :
    Renders q previous (ts ++ us) next (s ++ r) (s' ++ r') where
  within := by
    rw [String.toList_append, texts_append]
    exact h.within.append h'.within
  qualifies hlevel y vs hvs hcovers := by
    rw [String.toList_append, texts_append] at hlevel
    obtain ⟨hts, hus⟩ := hlevel.split h.within h'.within
    rw [String.toList_append, List.append_assoc, List.append_assoc] at hcovers
    have hhead : (us ++ vs).head? = us.head?.or next := by rw [List.head?_append, hvs]
    have hleft := h.qualifies hts _ _ hhead hcovers
    have hright := h'.qualifies hus _ _ hvs (hcovers.split hleft.solid_eq).2
    rw [String.toList_append, String.toList_append]
    exact hleft.append hright

theorem cons (h : Renders q previous [t] (ts.head?.or next) s s')
    (h' : Renders q (some t) ts next r r') : Renders q previous (t :: ts) next (s ++ r) (s' ++ r') :=
  append h h'

theorem concat (h : Renders q previous ts (some t) s s')
    (h' : Renders q (ts.getLast?.or previous) [t] next r r') :
    Renders q previous (ts ++ [t]) next (s ++ r) (s' ++ r') :=
  append h h'

theorem blank : Renders q previous [] next " " " " where
  within := by decide
  qualifies _ _ _ _ _ := .space (by decide) .nil

theorem space (h : Renders q previous ts next s s') :
    Renders q previous ts next (" " ++ s) (" " ++ s') :=
  append blank h

/-! ## Tokens that are written -/

/-- Tokens that are written with no other weight than theirs, with their brackets and semicolons, and
without a call. -/
theorem kept (hweight : Text.weight s.toList ≤ Text.weight (texts ts))
    (halike : Text.Alike s.toList (texts ts)) (hquiet : Covers s.toList ts → Quiet q previous next ts) :
    Renders q previous ts next s s where
  within := halike.within hweight
  qualifies hlevel y us _ hcovers := by
    have hsolid : Text.solid s.toList = Token.solid ts := by
      rw [Text.solid_eq, hlevel.1, halike.1, ← Text.solid_eq]
      rfl
    have hcovers := (hcovers.split hsolid).1
    exact .of_covers hcovers (hquiet hcovers)

theorem token (q : Qualifier) (previous : Option Token) (t : Token) (next : Option Token) :
    Renders q previous [t] next t.text (marked q previous t next) where
  within := Text.Level.within (by rw [texts_cons, texts_nil, List.append_nil]; exact .refl _)
  qualifies _ _ _ _ _ := by
    have htoken : Qualifies q previous [t] next _ _ := .token .nil
    rwa [List.append_nil, List.append_nil] at htoken

theorem plain (h : callsLibrary q previous t next = false) :
    Renders q previous [t] next t.text t.text := by
  have htoken := token q previous t next
  rwa [marked, h] at htoken

theorem quiet_of_kind (h : t.kind ≠ .name) : Quiet q previous next [t] := by
  simp [Quiet, callsLibrary, h]

/-- A symbol in a text of its own. -/
theorem symbol {j sym : String} (ht : t.isSymbol sym = true)
    (hj : Text.weight j.toList ≤ Text.weight sym.toList ∧ Text.Alike j.toList sym.toList) :
    Renders q previous [t] next j j := by
  simp only [isSymbol, Bool.and_eq_true, beq_iff_eq] at ht
  refine kept ?_ ?_ fun _ => quiet_of_kind (by rw [ht.1]; decide)
  · simpa [ht.2] using hj.1
  · simpa [ht.2] using hj.2

/-- Any closing bracket. -/
theorem closing {j : String} (ht : t.isClose = true)
    (hj : Text.weight j.toList = 0 ∧ Text.Alike j.toList [')']) : Renders q previous [t] next j j := by
  have hbracket : ∀ text ∈ [")", "]", "\x7d"], Text.Alike [')'] text.toList := by decide
  simp only [isClose, Bool.and_eq_true, beq_iff_eq, List.contains_iff_mem] at ht
  refine kept (by omega) ?_ fun _ => quiet_of_kind (by rw [ht.1]; decide)
  simpa using hj.2.trans (hbracket _ ht.2)

/-- A keyword in a text of its own. Where that is read as the keyword, the case is the same. -/
theorem keyword {word j : String} (ht : t.isKeyword word = true) (hstands : Stands t [])
    (hj : Text.weight j.toList = word.toList.length ∧ Text.Alike j.toList [] ∧
      j.toList.filter (!isSpace ·) = word.toList)
    (hword : word ∈ q.functions → next.any (·.isSymbol "(") = false) :
    Renders q previous [t] next j j := by
  simp only [isKeyword, isKeywordIn, Bool.and_eq_true, beq_iff_eq, List.contains_iff_mem,
    List.mem_singleton] at ht
  have hweighty := hstands.isWeighty_of_name ht.1
  obtain ⟨hweight, hlight, hopens, hcloses⟩ := Text.alike_nil_of_isWeighty hweighty
  have hlength : word.toList.length = t.text.toList.length := by
    rw [← ht.2, String.toLower, String.toList_map, List.length_map]
  have htexts : texts [t] = t.text.toList := by simp
  refine kept (by rw [htexts]; omega) ?_ fun hcovers => ?_
  · rw [htexts]
    exact hj.2.1.trans ⟨hlight.symm, hopens.symm, hcloses.symm⟩
  · have hfilter := hcovers.filter_eq
    rw [hj.2.2, List.flatMap_singleton, List.filter_eq_self.2 fun c hc => by
      have := hweighty c hc
      simp only [Text.isWeighty, Bool.and_eq_true] at this
      exact this.1, String.toList_inj] at hfilter
    refine ⟨?_, trivial⟩
    rw [← Bool.not_eq_true, callsLibrary]
    simp only [Bool.and_eq_true, List.contains_iff_mem, not_and, List.head?_nil, Option.none_or]
    intro hcall
    rw [hword (hfilter ▸ hcall.1.2)] at hcall
    exact absurd hcall.2 (by decide)

/-! ## Tokens that are left out, and texts without tokens -/

/-- Brackets and a semicolon of the printer's own, which the next token is none of. -/
theorem added {j sym : String} (hsym : sym ∈ solitary) (hj : sym.toList <+: j.toList)
    (hwithin : Text.Within j.toList []) (hnext : next ≠ some (.symbol sym)) :
    Renders q previous [] next j j where
  within := hwithin
  qualifies _ y us hus hcovers := by
    obtain ⟨more, hmore⟩ := hj
    rw [← hmore, List.append_assoc] at hcovers
    exact absurd (hus.symm.trans (hcovers.head?_of_solitary hsym)) hnext

/-- Tokens can be left out if they have weight, or close more brackets than they open, or would be
missed in what follows. -/
theorem skip (hts : Text.weight (texts ts) = 0 → Text.opens (texts ts) ≤ Text.closes (texts ts) ∧
      (Text.opens (texts ts) = Text.closes (texts ts) →
        ∀ {y : List Char} {vs : List Token}, Covers (s.toList ++ y) (ts ++ vs) → ts = []))
    (h : Renders q (ts.getLast?.or previous) us next s s') :
    Renders q previous (ts ++ us) next s s' where
  within := by
    have hwithin := h.within
    unfold Text.Within at hwithin ⊢
    simp only [texts_append, Text.weight_append, Text.opens_append, Text.closes_append]
    rcases Nat.eq_zero_or_pos (Text.weight (texts ts)) with hweight | hweight
    · have := (hts hweight).1
      omega
    · omega
  qualifies hlevel y vs hvs hcovers := by
    have hwithin := h.within
    unfold Text.Within at hwithin
    unfold Text.Level at hlevel
    simp only [texts_append, Text.weight_append, Text.opens_append, Text.closes_append] at hlevel
    have hweight : Text.weight (texts ts) = 0 := by omega
    obtain ⟨hle, hnil⟩ := hts hweight
    have hcovers' := hcovers
    rw [List.append_assoc] at hcovers'
    obtain rfl := hnil (by omega) hcovers'
    exact h.qualifies ⟨by omega, by omega⟩ _ _ hvs hcovers

/-- Where something of weight is lost, nothing more is said. -/
theorem lossy (h : Text.weight s.toList < Text.weight (texts ts)) :
    Renders q previous ts next s s' where
  within := .inl h
  qualifies hlevel := absurd hlevel.1 (Nat.ne_of_lt h)

theorem skip_weighty (hts : 0 < Text.weight (texts ts))
    (h : Renders q (ts.getLast?.or previous) us next s s') :
    Renders q previous (ts ++ us) next s s' := by
  have hall := append (@lossy q previous _ ts "" "" hts) h
  rwa [String.empty_append, String.empty_append] at hall

end Renders

end Print

/-! ## The calls of a text -/

namespace Text

variable {places : List Nat} {s u v : List Char} {offset : Nat}

theorem insertAt_append :
    insertAt places s offset (u ++ v) =
      insertAt places s offset u ++ insertAt places s (offset + byteLength u) v := by
  induction u generalizing offset with
  | nil => rfl
  | cons c u ih => simp [insertAt, ih, byteLength, Nat.add_assoc]

theorem insertAt_of_le (h : ∀ place ∈ places, offset + byteLength u ≤ place) :
    insertAt places s offset u = u := by
  induction u generalizing offset with
  | nil => rfl
  | cons c u ih =>
    have hc := c.utf8Size_pos
    have hno : places.contains offset = false := by
      simp only [← Bool.not_eq_true, List.contains_iff_mem]
      intro hmem
      have := h offset hmem
      rw [byteLength] at this
      omega
    have hrest := @ih (offset + c.utf8Size) (by simpa [byteLength, Nat.add_assoc] using h)
    rw [insertAt, hno, hrest]
    rfl

theorem insertAt_cons_of_lt {place : Nat} (h : place < offset) :
    insertAt (place :: places) s offset u = insertAt places s offset u := by
  induction u generalizing offset with
  | nil => rfl
  | cons c u ih =>
    have hne : (offset == place) = false := beq_false_of_ne (Nat.ne_of_gt h)
    simp only [insertAt, List.contains_cons, hne, Bool.false_or,
      ih (Nat.lt_of_lt_of_le h (Nat.le_add_right _ _))]

/-- What is written before a text that begins at a place. -/
theorem insertAt_cons_self (hu : u ≠ []) (h : ∀ place ∈ places, offset + byteLength u ≤ place) :
    insertAt (offset :: places) s offset u = s ++ u := by
  obtain ⟨c, u, rfl⟩ := List.exists_cons_of_ne_nil hu
  have hc := c.utf8Size_pos
  rw [byteLength] at h
  rw [insertAt, insertAt_cons_of_lt (by omega), insertAt_of_le fun place hplace => by
    have := h place hplace
    omega]
  simp

end Text

namespace Run

theorem le_start_of_scanFrom {offset : Nat} {text : List Char} {run : Run}
    (h : scanFrom offset text = .ok run) : ∀ t ∈ run, offset ≤ t.start := by
  intro t ht
  obtain ⟨before, post, rfl⟩ := List.append_of_mem ht
  obtain ⟨a, b, -, hstart, -⟩ := exists_scanFrom_at h before t post rfl
  omega

theorem mem_libraryCalls {q : Qualifier} {previous : Option Token} {run : Run} {place : Nat}
    (h : place ∈ run.libraryCalls q previous) : ∃ t ∈ run, t.start = place := by
  induction run generalizing previous with
  | nil => cases h
  | cons t run ih =>
    simp only [libraryCalls] at h
    have hrest (h : place ∈ libraryCalls q (some t.toToken) run) :
        ∃ u ∈ t :: run, u.start = place := by
      obtain ⟨u, hu, hstart⟩ := ih h
      exact ⟨u, List.mem_cons_of_mem t hu, hstart⟩
    split at h
    · rcases List.mem_cons.1 h with rfl | h
      · exact ⟨t, List.mem_cons_self, rfl⟩
      · exact hrest h
    · exact hrest h

end Run

namespace Print

variable {q : Qualifier} {previous next : Option Token} {ts : List Token}

/-- Where a call is followed by no parenthesis, the calls are those within the tokens. -/
theorem callsLibrary_or (hnext : next.any (·.isSymbol "(") = false) (t : Token) (head : Option Token) :
    callsLibrary q previous t (head.or next) = callsLibrary q previous t head := by
  cases head with
  | none => simp [callsLibrary, hnext]
  | some u => rfl

theorem Qualifies.eq_insertAt {u v : List Char} (h : Qualifies q previous ts next u v)
    (hnext : next.any (·.isSymbol "(") = false) (hcovers : Covers u ts) {offset : Nat} {run : Run}
    (hscan : scanFrom offset u = .ok run) (hrun : run.tokens = ts) :
    v = Text.insertAt (run.libraryCalls q previous) (q.className ++ "::").toList offset u := by
  have hstart := Run.le_start_of_scanFrom hscan
  induction h generalizing offset run with
  | nil => rfl
  | @space _ _ ts c u v hc _ ih =>
    have hcovers : Covers u ts := by
      cases hcovers with
      | space _ h => exact h
      | token hfound => exact absurd (isSpace_of_found hfound) (by simp [hc])
    rw [scanFrom_space hc] at hscan
    have hstart := Run.le_start_of_scanFrom hscan
    rw [ih hnext hcovers hscan hrun hstart, ← List.singleton_append, ← List.singleton_append (l := u),
      Text.insertAt_append]
    congr 1
    refine (Text.insertAt_of_le fun place hplace => ?_).symm
    obtain ⟨t, ht, rfl⟩ := Run.mem_libraryCalls hplace
    exact hstart t ht
  | @token previous next t ts u v _ ih =>
    obtain ⟨⟨c, w, htext, hfound⟩, hcovers⟩ := hcovers.of_token
    obtain ⟨run', hrest, htokens⟩ := exists_scanFrom hcovers.scans (offset + Text.byteLength (c :: w))
    rw [htext, List.cons_append, scanFrom_token hfound hrest] at hscan
    cases hscan
    have hstart := Run.le_start_of_scanFrom hrest
    have ht : (⟨t.kind, String.ofList (c :: w)⟩ : Token) = t := by
      rw [← htext, String.ofList_toList]
    obtain rfl : Run.tokens run' = ts := (List.cons.inj hrun).2
    have hhead : run'.head?.map (·.toToken) = (Run.tokens run').head? := List.head?_map.symm
    have hlength : 0 < Text.byteLength (c :: w) := by
      have := c.utf8Size_pos
      rw [Text.byteLength]
      omega
    have hplaces : ∀ place ∈ Run.libraryCalls q (some t) run',
        offset + Text.byteLength (c :: w) ≤ place := fun place hplace => by
      obtain ⟨u, hu, rfl⟩ := Run.mem_libraryCalls hplace
      exact hstart u hu
    rw [Text.insertAt_append, Run.libraryCalls, ht, hhead, marked, callsLibrary_or hnext, htext,
      ih hnext hcovers hrest rfl hstart]
    cases callsLibrary q previous t (Run.tokens run').head? with
    | true =>
      rw [if_pos rfl, if_pos rfl, Text.insertAt_cons_self (by simp) hplaces,
        Text.insertAt_cons_of_lt (Nat.lt_add_of_pos_right hlength), String.toList_append, htext]
    | false =>
      rw [if_neg (by simp), if_neg (by simp), Text.insertAt_of_le hplaces, htext]

/-- A text that renders all of its tokens is qualified by the class name before the calls in it. -/
theorem Renders.insertAt {s s' : String} {run : Run} (hscan : scan s.toList = .ok run)
    (h : Renders q none run.tokens none s s') :
    s'.toList =
      Text.insertAt (run.libraryCalls q none) (q.className ++ "::").toList 0 s.toList := by
  have hscans := scans_iff.2 ⟨run, hscan, rfl⟩
  have hcovers := hscans.covers_of_weight h.within.weight_le
  have hqualifies := h.qualifies hcovers.level [] [] rfl (by simpa using hcovers)
  exact hqualifies.eq_insertAt rfl hcovers hscan rfl

end Print

end CurryGen

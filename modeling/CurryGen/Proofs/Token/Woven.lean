import CurryGen.Proofs.Code.Comment
import CurryGen.Proofs.Token.Spacing
import CurryGen.Proofs.Token.Whole

/-!
# Where lines and comments end in written text

Two things in a text may do harm where the text is put: a line feed, and the end of a comment. Most
tokens have neither, and tokens that are written one after another do not make one where they meet.
So whatever is written of tokens has a line feed or the end of a comment only in those pieces of it
that are copied as they are.

* `Woven P`: a text made of parts that could be lines of a comment and of pieces that satisfy `P`.
* `Woven.exists_piece`: a line feed or the end of a comment in such a text stands in one of its
  pieces.
* `Supplies P`: tokens whose copied pieces satisfy `P`.
* `Supplies.text`, `Supplies.join`: what is written of such tokens is made of such pieces.
-/

namespace CurryGen

open Code

/-- What breaks a line, and what ends a comment. -/
def IsMark (mark : List Char) : Prop := mark = ['\n'] ∨ mark = ['*', '/']

/-- A text made of parts that could be lines of a comment and of pieces. Where two parts meet they end
a comment only if that is a piece itself. -/
inductive Woven (P : String → Prop) : String → Prop
  | plain {s : String} : IsCommentLine s → Woven P s
  | piece {s : String} : P s → Woven P s
  | append {s t : String} : Woven P s → Woven P t →
      (s.toList.getLast? = some '*' → t.toList.head? = some '/' → P "*/") → Woven P (s ++ t)

theorem Code.IsCommentLine.not_isInfix {s : String} (h : IsCommentLine s) {mark : List Char}
    (hmark : IsMark mark) : ¬mark <:+: s.toList := by
  rcases hmark with rfl | rfl
  · exact fun hin => h.unbroken (hin.subset (List.mem_singleton.2 rfl))
  · exact h.unclosed

/-- A mark in a text is in its first part, in its second part, or made by both. -/
theorem IsMark.isInfix_append {mark u v : List Char} (hmark : IsMark mark) (h : mark <:+: u ++ v) :
    mark <:+: u ∨ mark <:+: v ∨
      mark = ['*', '/'] ∧ u.getLast? = some '*' ∧ v.head? = some '/' := by
  rcases List.infix_append_iff.1 h with hu | hv | ⟨a, b, rfl, ha, hb⟩
  · exact .inl hu
  · exact .inr (.inl hv)
  · rcases hmark with hmark | hmark
    · rcases List.append_eq_singleton_iff.1 hmark with ⟨rfl, rfl⟩ | ⟨rfl, rfl⟩
      · exact .inr (.inl (by simpa using hb.isInfix))
      · exact .inl (by simpa using ha.isInfix)
    · cases a with
      | nil => exact .inr (.inl hb.isInfix)
      | cons c a =>
        obtain ⟨rfl, hrest⟩ := List.cons.inj hmark
        rcases List.append_eq_singleton_iff.1 hrest with ⟨rfl, rfl⟩ | ⟨rfl, rfl⟩
        · obtain ⟨x, rfl⟩ := ha
          obtain ⟨y, rfl⟩ := hb
          exact .inr (.inr ⟨rfl, by simp, rfl⟩)
        · exact .inl (by simpa using ha.isInfix)

namespace Woven

variable {P : String → Prop} {s t : String}

/-- A mark in a woven text stands in one of its pieces. -/
theorem exists_piece (h : Woven P s) {mark : List Char} (hmark : IsMark mark)
    (hin : mark <:+: s.toList) : ∃ w, P w ∧ mark <:+: w.toList ∧ w.toList <:+: s.toList := by
  induction h with
  | plain hs => exact absurd hin (hs.not_isInfix hmark)
  | @piece s hs => exact ⟨s, hs, hin, List.infix_rfl⟩
  | @append s t _ _ hmeet ihs iht =>
    rw [String.toList_append] at hin ⊢
    rcases hmark.isInfix_append hin with hs | ht | ⟨rfl, hlast, hhead⟩
    · obtain ⟨w, hw, hin, hws⟩ := ihs hs
      exact ⟨w, hw, hin, hws.trans (List.prefix_append _ _).isInfix⟩
    · obtain ⟨w, hw, hin, hwt⟩ := iht ht
      exact ⟨w, hw, hin, hwt.trans (List.suffix_append _ _).isInfix⟩
    · exact ⟨"*/", hmeet hlast hhead, List.infix_rfl, hin⟩

end Woven

/-! ## Joints -/

/-- A line of a comment that is not empty, begins with no slash and ends with no star. -/
structure IsJoint (s : String) : Prop where
  plain : IsCommentLine s
  ne_nil : s.toList ≠ []
  head : s.toList.head? ≠ some '/'
  last : s.toList.getLast? ≠ some '*'

instance : DecidablePred IsJoint := fun s =>
  decidable_of_iff
    (IsCommentLine s ∧ s.toList ≠ [] ∧ s.toList.head? ≠ some '/' ∧ s.toList.getLast? ≠ some '*')
    ⟨fun ⟨plain, ne_nil, head, last⟩ => ⟨plain, ne_nil, head, last⟩,
      fun h => ⟨h.plain, h.ne_nil, h.head, h.last⟩⟩

namespace Woven

variable {P : String → Prop} {s t j : String}

theorem before_joint (hs : Woven P s) (hj : IsJoint j) : Woven P (s ++ j) :=
  hs.append (.plain hj.plain) fun _ hhead => absurd hhead hj.head

theorem after_joint (hj : IsJoint j) (ht : Woven P t) : Woven P (j ++ t) :=
  .append (.plain hj.plain) ht fun hlast => absurd hlast hj.last

/-- A joint keeps two texts apart. -/
theorem joint (hs : Woven P s) (hj : IsJoint j) (ht : Woven P t) : Woven P (s ++ j ++ t) := by
  refine (hs.before_joint hj).append ht fun hlast => absurd ?_ hj.last
  rwa [String.toList_append, List.getLast?_append_of_ne_nil _ hj.ne_nil] at hlast

theorem intercalate (hj : IsJoint j) {texts : List String} (h : ∀ s ∈ texts, Woven P s) :
    Woven P (j.intercalate texts) := by
  induction texts with
  | nil =>
    rw [String.intercalate_nil]
    exact .plain (by decide)
  | cons s rest ih =>
    rw [List.forall_mem_cons] at h
    cases rest with
    | nil =>
      rw [String.intercalate_singleton]
      exact h.1
    | cons t rest =>
      rw [String.intercalate_cons_cons]
      exact h.1.joint hj (ih h.2)

end Woven

/-! ## Tokens -/

namespace Scan

/-- After its first character, a name, a variable or a number has only characters that can belong to
it. -/
theorem notMem_of_found {c d : Char} {w : List Char} {kind : Token.Kind} (hd : isStop d = true)
    (hsign : isSign d = false) (h : found c w = .token kind w.length) (hstring : kind ≠ .string)
    (hdoc : kind ≠ .doc) (hsymbol : kind ≠ .symbol) : d ∉ w := by
  obtain ⟨hname, hslash, hpoint⟩ := isStop_iff.1 hd
  have hmore {w : List Char} (hw : nameTail w = w.length) : d ∉ w :=
    notMem_of_whole (nameTail_append_stop hname hslash) nameTail_le_length hw
  have hfirst {e : Char} (he : isNameStart e = true) : d ≠ e := by
    rintro rfl
    rw [isNameChar_of_isNameStart he] at hname
    cases hname
  cases tokenAt_of_found h with
  | name _ hw => exact hmore hw
  | rootedName _ hcs he hw =>
    obtain rfl := hcs
    rw [List.mem_cons, not_or]
    exact ⟨hfirst he, hmore (Nat.succ.inj hw)⟩
  | variableName _ hcs he hw =>
    obtain rfl := hcs
    rw [List.mem_cons, not_or]
    refine ⟨hfirst he, fun hmem => ?_⟩
    rw [count_eq_length_iff.1 (Nat.succ.inj hw) d hmem] at hname
    cases hname
  | number _ hw _ =>
    refine notMem_of_whole (f := fun u => (number c u).more) (fun u y => ?_) (number_le_length c)
      (by rw [hw]; rfl)
    rw [number_append_stop hname hpoint y (.inl hsign)]
  | string => exact absurd rfl hstring
  | doc => exact absurd rfl hdoc
  | symbol => exact absurd rfl hsymbol

theorem star_notMem_of_found {c : Char} {w : List Char} {kind : Token.Kind}
    (h : found c w = .token kind w.length) (hstring : kind ≠ .string) (hdoc : kind ≠ .doc)
    (hsymbol : kind ≠ .symbol) : '*' ∉ c :: w := by
  rw [List.mem_cons, not_or]
  refine ⟨?_, notMem_of_found (by decide) (by decide) h hstring hdoc hsymbol⟩
  rintro rfl
  exact hsymbol (symbolAt_eq_token_iff.1 h).1

theorem isCommentLine_symbols : ∀ s ∈ symbols, IsCommentLine s := by decide

/-- Only strings and documentation comments can have a line feed or the end of a comment. -/
theorem Stands.isCommentLine {t : Token} (h : Stands t []) (hstring : t.kind ≠ .string)
    (hdoc : t.kind ≠ .doc) : IsCommentLine t.text := by
  by_cases hsymbol : t.kind = .symbol
  · exact isCommentLine_symbols _ (h.mem_symbols hsymbol)
  · obtain ⟨c, w, htext, hfound⟩ := h
    constructor
    · rw [htext]
      exact fun hmem => absurd (nonblank_of_found hfound hstring hdoc _ hmem) (by decide)
    · rw [List.append_nil] at hfound
      rw [htext]
      exact fun hin => star_notMem_of_found hfound hstring hdoc hsymbol (hin.subset (by simp))

end Scan

/-! ## What is written of tokens -/

/-- Code of a text whose copied pieces satisfy `P`: its strings, and the end of a comment if one token
ends with the star and another begins with the slash. -/
structure Supplies (P : String → Prop) (ts : Run) : Prop where
  stands : ∀ t ∈ ts, Scan.Stands t.toToken []
  isDoc : ∀ t ∈ ts, t.isDoc = false
  string : ∀ t ∈ ts, t.kind = .string → P t.text
  meet : ∀ a ∈ ts, ∀ b ∈ ts, a.text.toList.getLast? = some '*' → b.text.toList.head? = some '/' →
    P "*/"

namespace Supplies

variable {P : String → Prop} {ts us : Run}

theorem mono (h : Supplies P ts) (hus : us.Sublist ts) : Supplies P us where
  stands := fun t ht => h.stands t (hus.subset ht)
  isDoc := fun t ht => h.isDoc t (hus.subset ht)
  string := fun t ht => h.string t (hus.subset ht)
  meet := fun a ha b hb => h.meet a (hus.subset ha) b (hus.subset hb)

theorem isCommentLine (h : Supplies P ts) {t : Placed} (ht : t ∈ ts) (hstring : t.kind ≠ .string) :
    IsCommentLine t.text :=
  (h.stands t ht).isCommentLine hstring fun hdoc => by
    have hcode := h.isDoc t ht
    rw [Token.isDoc, hdoc] at hcode
    cases hcode

theorem text (h : Supplies P ts) {t : Placed} (ht : t ∈ ts) : Woven P t.text := by
  by_cases hstring : t.kind = .string
  · exact .piece (h.string t ht hstring)
  · exact .plain (h.isCommentLine ht hstring)

/-- The texts of a type are written without spaces, so its tokens may end a comment where they
meet. -/
theorem join (h : Supplies P ts) : Woven P ts.join := by
  induction ts with
  | nil => exact .plain (by decide)
  | cons t ts ih =>
    have hjoin : Run.join (t :: ts) = t.text ++ Run.join ts := by
      rw [Run.join, List.map_cons, String.join_cons]
      rfl
    rw [hjoin]
    refine (h.text List.mem_cons_self).append (ih (h.mono (List.sublist_cons_self t ts))) ?_
    intro hlast hhead
    cases ts with
    | nil => cases hhead
    | cons b ts =>
      refine h.meet t List.mem_cons_self b (by simp) hlast ?_
      obtain ⟨c, w, htext, -⟩ := h.stands b (by simp)
      rw [Run.join, List.map_cons, String.join_cons, String.toList_append, htext] at hhead
      rw [htext]
      exact hhead

end Supplies

end CurryGen

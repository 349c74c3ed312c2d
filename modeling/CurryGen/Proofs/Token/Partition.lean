import CurryGen.Proofs.Token.Slice
import CurryGen.Proofs.Code.Comment

/-!
# A text, cut by its tokens

The tokens of a text lie one after another in it, and everything before, between and after them is
something that a scan passes over. What may be passed over is given by a grammar of its own: `Item`
says what one blank, tag, comment or attribute group looks like, without reference to how a scan
finds its end.

* `item_of_skipped`: whatever `found` skips is an `Item`.
* `Laid`: a text as tokens with skipped texts around them; `laid_of_scanFrom` finds them.
* `scan_partition`: the places and texts of tokens, and what lies between them.
-/

namespace CurryGen

open Scan Text

/-- The offset lies between two characters of the text, or at one of its ends. -/
def Text.IsBoundary (text : List Char) (offset : Nat) : Prop :=
  ∃ u v, text = u ++ v ∧ offset = byteLength u

namespace Run

/-- The offset just after the last of the tokens that stand before some place. -/
def stop (before : Run) : Nat := (before.getLast?.map Placed.stop).getD 0

/-- The offset of the first of the tokens that stand after some place, or else the end of the text. -/
def startIn (text : List Char) (post : Run) : Nat :=
  (post.head?.map Placed.start).getD (byteLength text)

end Run

namespace Scan

/-! ## What is passed over -/

/-- What may stand between two quotes `q`: a backslash takes the next character with it. -/
inductive Inside (q : Char) : List Char → Prop
  | nil : Inside q []
  | plain {c : Char} {w : List Char} : c ≠ q → c ≠ '\\' → Inside q w → Inside q (c :: w)
  | escaped {c : Char} {w : List Char} : Inside q w → Inside q ('\\' :: c :: w)

/-- A text whose square brackets match; brackets between quotes do not count. -/
inductive Bracketed : List Char → Prop
  | nil : Bracketed []
  | plain {c : Char} {w : List Char} :
      c ∉ ['[', ']', '\'', '"'] → Bracketed w → Bracketed (c :: w)
  | quoted {q : Char} {u w : List Char} :
      q ∈ ['\'', '"'] → Inside q u → Bracketed w → Bracketed (q :: (u ++ q :: w))
  | group {u w : List Char} : Bracketed u → Bracketed w → Bracketed ('[' :: (u ++ ']' :: w))

/-- A text that is empty or begins with a line feed. -/
def EndsLine (y : List Char) : Prop := ∀ c ∈ y.head?, c = '\n'

/-- One thing that is passed over, before the text `y`. -/
inductive Item (y : List Char) : List Char → Prop
  | blanks {w : List Char} :
      w ≠ [] → (∀ c ∈ w, c ∈ [' ', '\t', '\r', '\n', '\x0c']) → Item y w
  | openTag : Item y "<?php".toList
  | closeTag : Item y "?>".toList
  | slashes {w : List Char} : '\n' ∉ w → EndsLine y → Item y ("//".toList ++ w)
  | hash {w : List Char} :
      w.head? ≠ some '[' → '\n' ∉ w → EndsLine y → Item y ("#".toList ++ w)
  /-- A plain comment ends with its first `*/`, and its text begins with no further star. -/
  | comment {w : List Char} :
      w.head? ≠ some '*' → ¬"*/".toList <:+: w ++ ['*'] → Item y ("/*".toList ++ w ++ "*/".toList)
  | attribute {w : List Char} : Bracketed w → Item y ("#[".toList ++ w ++ "]".toList)

/-- A sequence of things that are passed over, before the text `y`. -/
inductive Skipped (y : List Char) : List Char → Prop
  | nil : Skipped y []
  | item {w u : List Char} : Item (u ++ y) w → Skipped y u → Skipped y (w ++ u)

/-! ## What a scan skips -/

/-- A comment that ends with the text has its first `*/` there. -/
theorem exists_of_closeComment {ds : List Char} (h : closeComment ds = some ds.length) :
    ∃ w, ds = w ++ ['*', '/'] ∧ ¬['*', '/'] <:+: w ++ ['*'] := by
  induction ds with
  | nil => cases h
  | cons c ds ih =>
    by_cases hclose : c = '*' ∧ ds.head? = some '/'
    · rw [closeComment_close hclose] at h
      obtain ⟨rfl, hhead⟩ := hclose
      obtain ⟨rest, rfl⟩ := List.head?_eq_some_iff.1 hhead
      obtain rfl : rest = [] := List.eq_nil_of_length_eq_zero (by simpa using h)
      exact ⟨[], rfl, by decide⟩
    · rw [closeComment_cons hclose, List.length_cons] at h
      obtain ⟨w, rfl, hw⟩ := ih (eq_some_of_map_add h)
      refine ⟨c :: w, rfl, ?_⟩
      rw [List.cons_append, List.infix_cons_iff, not_or]
      refine ⟨?_, hw⟩
      rintro ⟨rest, hrest⟩
      obtain ⟨rfl, hrest⟩ := List.cons.inj hrest
      refine hclose ⟨rfl, ?_⟩
      cases w with
      | nil => cases hrest
      | cons d w =>
        rw [← (List.cons.inj (List.cons.inj hrest).2).1]
        rfl

/-! ## Attribute groups -/

/-- What stands in open quotes up to the end of an attribute. -/
theorem exists_inside {q : Char} {depth : Nat} : ∀ u : List Char,
    closeAttribute ⟨depth, some q, false⟩ u = some u.length →
      ∃ s v, u = s ++ q :: v ∧ Inside q s ∧
        closeAttribute ⟨depth, none, false⟩ v = some v.length
  | [], h => by cases h
  | [c], h => by
    rw [closeAttribute] at h
    have hnext : ∃ s, AttributeState.next ⟨depth, some q, false⟩ c = some s := by
      simp only [AttributeState.next, Bool.false_eq_true, if_false]
      repeat' split
      all_goals exact ⟨_, rfl⟩
    obtain ⟨s, hs⟩ := hnext
    rw [hs] at h
    cases h
  | c :: d :: u, h => by
    rw [closeAttribute] at h
    by_cases hslash : c = '\\'
    · have hfirst : AttributeState.next ⟨depth, some q, false⟩ c = some ⟨depth, some q, true⟩ := by
        simp [AttributeState.next, hslash]
      have hsecond : AttributeState.next ⟨depth, some q, true⟩ d = some ⟨depth, some q, false⟩ := by
        simp [AttributeState.next]
      rw [hfirst] at h
      have h := eq_some_of_map_add h
      rw [closeAttribute, hsecond] at h
      obtain ⟨s, v, rfl, hs, hv⟩ := exists_inside u (eq_some_of_map_add h)
      exact ⟨'\\' :: d :: s, v, by rw [hslash]; rfl, .escaped hs, hv⟩
    · by_cases hquote : c = q
      · have hnext : AttributeState.next ⟨depth, some q, false⟩ c = some ⟨depth, none, false⟩ := by
          simp only [AttributeState.next, Bool.false_eq_true, if_false, beq_iff_eq, if_neg hslash,
            if_pos hquote]
        rw [hnext] at h
        exact ⟨[], d :: u, by rw [hquote]; rfl, .nil, eq_some_of_map_add h⟩
      · have hnext : AttributeState.next ⟨depth, some q, false⟩ c = some ⟨depth, some q, false⟩ := by
          simp [AttributeState.next, hslash, hquote]
        rw [hnext] at h
        obtain ⟨s, v, heq, hs, hv⟩ := exists_inside (d :: u) (eq_some_of_map_add h)
        exact ⟨c :: s, v, by rw [heq]; rfl, .plain hquote hslash hs, hv⟩

/-- A text that closes an attribute at its end, and `depth` brackets in it before. -/
def Closes : Nat → List Char → Prop
  | 0, u => ∃ b, u = b ++ [']'] ∧ Bracketed b
  | depth + 1, u => ∃ b v, u = b ++ ']' :: v ∧ Bracketed b ∧ Closes depth v

/-- What keeps brackets matched may stand in front. -/
theorem Closes.prepend {x u : List Char} (hx : ∀ b, Bracketed b → Bracketed (x ++ b))
    {depth : Nat} (h : Closes depth u) : Closes depth (x ++ u) := by
  cases depth with
  | zero =>
    obtain ⟨b, rfl, hb⟩ := h
    exact ⟨x ++ b, by rw [List.append_assoc], hx b hb⟩
  | succ depth =>
    obtain ⟨b, v, rfl, hb, hv⟩ := h
    exact ⟨x ++ b, v, by rw [List.append_assoc], hx b hb, hv⟩

theorem closes_of_closeAttribute {depth : Nat} {u : List Char}
    (h : closeAttribute ⟨depth + 1, none, false⟩ u = some u.length) : Closes depth u := by
  induction hn : u.length using Nat.strongRecOn generalizing depth u with
  | ind n ih =>
    cases u with
    | nil => cases h
    | cons c u =>
      have hlt : u.length < n := by
        rw [← hn]
        exact Nat.lt_succ_self _
      rw [closeAttribute] at h
      by_cases hquote : c ∈ ['\'', '"']
      · have hnext : AttributeState.next ⟨depth + 1, none, false⟩ c =
            some ⟨depth + 1, some c, false⟩ := by
          simp only [List.mem_cons, List.not_mem_nil, or_false] at hquote
          rcases hquote with rfl | rfl <;> rfl
        rw [hnext] at h
        obtain ⟨s, v, rfl, hs, hv⟩ := exists_inside u (eq_some_of_map_add h)
        have hshorter : v.length < n := by
          simp only [List.length_append, List.length_cons] at hlt
          omega
        have hclosed := (ih v.length hshorter hv rfl).prepend (x := c :: (s ++ [c]))
          fun b hb => by simpa using Bracketed.quoted hquote hs hb
        simpa using hclosed
      · by_cases hopen : c = '['
        · obtain rfl := hopen
          have hnext : AttributeState.next ⟨depth + 1, none, false⟩ '[' =
            some ⟨depth + 2, none, false⟩ := rfl
          rw [hnext] at h
          obtain ⟨b, v, rfl, hb, hv⟩ := ih u.length hlt (eq_some_of_map_add h) rfl
          have hclosed := hv.prepend (x := '[' :: (b ++ [']']))
            fun b' hb' => by simpa using Bracketed.group hb hb'
          simpa using hclosed
        · by_cases hclose : c = ']'
          · obtain rfl := hclose
            cases depth with
            | zero =>
              have hnext : AttributeState.next ⟨1, none, false⟩ ']' = none := rfl
              rw [hnext] at h
              obtain rfl : u = [] := List.eq_nil_of_length_eq_zero (by simpa using h.symm)
              exact ⟨[], rfl, .nil⟩
            | succ depth =>
              have hnext : AttributeState.next ⟨depth + 2, none, false⟩ ']' =
                some ⟨depth + 1, none, false⟩ := rfl
              rw [hnext] at h
              exact ⟨[], u, rfl, .nil, ih u.length hlt (eq_some_of_map_add h) rfl⟩
          · have hnext : AttributeState.next ⟨depth + 1, none, false⟩ c =
                some ⟨depth + 1, none, false⟩ := by
              simp only [List.mem_cons, List.not_mem_nil, or_false, not_or] at hquote
              simp [AttributeState.next, hquote, hopen, hclose]
            rw [hnext] at h
            refine (ih u.length hlt (eq_some_of_map_add h) rfl).prepend (x := [c]) fun b hb => ?_
            refine .plain ?_ hb
            simp only [List.mem_cons, List.not_mem_nil, or_false, not_or] at hquote ⊢
            exact ⟨hopen, hclose, hquote⟩

theorem bracketed_of_closeAttribute {ds : List Char} (h : closeAttribute {} ds = some ds.length) :
    ∃ w, ds = w ++ [']'] ∧ Bracketed w :=
  closes_of_closeAttribute h

/-! ## Items -/

/-- Whatever is skipped at the head of a text is an item, unless it is a blank. -/
theorem item_of_skipped {c : Char} {w rest : List Char} (hc : isSpace c = false)
    (h : found c (w ++ rest) = .skipped w.length) : Item rest (c :: w) := by
  cases skippedAt_of_found hc h with
  | tag htag =>
    rcases htag with htag | htag <;> rw [htag]
    · exact .openTag
    · exact .closeTag
  | line hstart hno hrest =>
    rcases hstart with ⟨rfl, hbracket⟩ | ⟨rfl, hslash⟩
    · exact .hash hbracket hno hrest
    · obtain ⟨v, rfl⟩ := List.head?_eq_some_iff.1 hslash
      exact .slashes (fun hmem => hno (List.mem_cons_of_mem _ hmem)) hrest
  | comment hslash hds hclose hplain =>
    subst hslash hds
    obtain ⟨w, rfl, hw⟩ := exists_of_closeComment hclose
    refine .comment (fun hhead => hplain ?_) hw
    obtain ⟨v, rfl⟩ := List.head?_eq_some_iff.1 hhead
    exact ⟨rfl, by simp⟩
  | group hhash hds hclose =>
    subst hhash hds
    obtain ⟨w, rfl, hw⟩ := bracketed_of_closeAttribute hclose
    exact .attribute hw

/-! ## Tokens -/

/-- What the text of a token is not: it opens no attribute group, and only a documentation comment
that is not empty is written with two stars. -/
structure IsTokenText (t : Token) : Prop where
  noAttribute : ¬"#[".toList <+: t.text.toList
  documents : t.isDoc = true → "/**".toList <+: t.text.toList ∧ t.text ≠ "/**/"

theorem ne_hash_of_found {c : Char} {cs : List Char} {kind : Token.Kind} {k : Nat}
    (h : found c cs = .token kind k) : c ≠ '#' := by
  rintro rfl
  exact afterHash_ne_token h

theorem isTokenText_of_found {c : Char} {w rest : List Char} {kind : Token.Kind}
    (h : found c (w ++ rest) = .token kind w.length) :
    IsTokenText ⟨kind, String.ofList (c :: w)⟩ where
  noAttribute := by
    rintro ⟨v, hv⟩
    have hv : '#' :: '[' :: v = c :: w := hv.trans String.toList_ofList
    exact ne_hash_of_found h (List.cons.inj hv).1.symm
  documents := by
    intro hdoc
    obtain rfl : kind = .doc := by simpa [Token.isDoc] using hdoc
    obtain ⟨ds, rfl, rfl, -, hhead, hlength⟩ := exists_of_found_doc h
    obtain ⟨v, rfl⟩ := List.head?_eq_some_iff.1 hhead
    refine ⟨⟨v, by simp⟩, fun heq => hlength ?_⟩
    have hlength := congrArg (fun s => s.toList.length) heq
    simpa using hlength

/-! ## Texts in pieces -/

/-- A text as its tokens, with what is passed over before each of them and at the end. -/
inductive Laid : Nat → List Char → Run → Prop
  | nil {offset : Nat} {gap : List Char} : Skipped [] gap → Laid offset gap []
  | cons {gap rest : List Char} {t : Placed} {run : Run} {offset : Nat} :
      Skipped (t.text.toList ++ rest) gap → t.start = offset + byteLength gap →
      t.text.toList ≠ [] → IsTokenText t.toToken → Laid t.stop rest run →
      Laid offset (gap ++ (t.text.toList ++ rest)) (t :: run)

/-- An item may stand in front. -/
theorem Laid.skip {offset : Nat} {w text : List Char} {run : Run} (hw : Item text w)
    (h : Laid (offset + byteLength w) text run) : Laid offset (w ++ text) run := by
  cases h with
  | nil hgap => exact .nil (.item (by rwa [List.append_nil]) hgap)
  | cons hgap hstart hne htext hrest =>
    rw [← List.append_assoc]
    refine .cons (.item hw hgap) ?_ hne htext hrest
    rw [hstart, byteLength_append, Nat.add_assoc]

theorem laid_of_scanFrom {offset : Nat} {text : List Char} {run : Run}
    (h : scanFrom offset text = .ok run) : Laid offset text run := by
  refine scanFrom_induction (P := Laid) ?nil ?space ?skip ?token h
  case nil => exact fun _ => .nil .nil
  case space =>
    intro offset c cs run hc ih
    have hblank : Item cs [c] := by
      refine .blanks (List.cons_ne_nil _ _) fun d hd => ?_
      rw [List.mem_singleton.1 hd]
      simpa [isSpace, or_assoc] using hc
    exact ih.skip hblank
  case skip =>
    intro offset c w rest run hc hfound ih
    exact ih.skip (item_of_skipped hc hfound)
  case token =>
    intro offset c w rest kind run hfound _ ih
    have hlaid := @Laid.cons [] rest ⟨⟨kind, String.ofList (c :: w)⟩, offset⟩ run offset .nil rfl
      (by simp) (isTokenText_of_found hfound) (by rwa [Placed.stop, ← byteLength_eq])
    rwa [List.nil_append, String.toList_ofList] at hlaid

theorem byteLength_text (t : Token) : byteLength t.text.toList = t.text.utf8ByteSize := by
  rw [byteLength_eq, String.ofList_toList]

theorem byteLength_pos {u : List Char} (h : u ≠ []) : 0 < byteLength u := by
  cases u with
  | nil => exact absurd rfl h
  | cons c u =>
    have := c.utf8Size_pos
    rw [byteLength]
    omega

/-- Each token has its text at its place. -/
theorem Laid.place {offset : Nat} {text : List Char} {run : Run} (h : Laid offset text run) :
    ∀ t ∈ run, ∃ u v, text = u ++ t.text.toList ++ v ∧ t.start = offset + byteLength u ∧
      t.text.toList ≠ [] ∧ IsTokenText t.toToken := by
  induction h with
  | nil => simp
  | @cons gap rest t run offset _ hstart hne htext _ ih =>
    intro t' ht'
    rcases List.mem_cons.1 ht' with rfl | ht'
    · exact ⟨gap, rest, by simp, hstart, hne, htext⟩
    · obtain ⟨u, v, rfl, hstart', hne', htext'⟩ := ih t' ht'
      refine ⟨gap ++ t.text.toList ++ u, v, by simp, ?_, hne', htext'⟩
      rw [hstart', Placed.stop, hstart, byteLength_append, byteLength_append, byteLength_text]
      omega

theorem Laid.ordered {offset : Nat} {text : List Char} {run : Run} (h : Laid offset text run) :
    run.Pairwise (fun a b => a.stop ≤ b.start) := by
  induction h with
  | nil => exact .nil
  | cons _ _ _ _ hrest ih =>
    refine .cons (fun t ht => ?_) ih
    obtain ⟨u, -, -, hstart, -⟩ := hrest.place t ht
    omega

/-- What lies between two neighbours is passed over, and so is what lies before the first token and
after the last one. -/
theorem Laid.gap {offset : Nat} {text : List Char} {run : Run} (h : Laid offset text run) :
    ∀ before post, run = before ++ post → ∃ a g b, text = a ++ g ++ b ∧ Skipped b g ∧
      (before.getLast?.map Placed.stop).getD offset = offset + byteLength a ∧
      (post.head?.map Placed.start).getD (offset + byteLength text) =
        offset + byteLength (a ++ g) := by
  induction h with
  | @nil offset gap hgap =>
    intro before post heq
    obtain ⟨rfl, rfl⟩ := List.append_eq_nil_iff.1 heq.symm
    exact ⟨[], gap, [], by simp, hgap, rfl, rfl⟩
  | @cons gap rest t run offset hgap hstart hne htext hrest ih =>
    intro before post heq
    cases before with
    | nil =>
      obtain rfl : t :: run = post := heq
      exact ⟨[], gap, t.text.toList ++ rest, rfl, hgap, rfl, hstart⟩
    | cons t' before =>
      obtain ⟨rfl, rfl⟩ := List.cons.inj heq
      obtain ⟨a, g, b, rfl, hg, hbefore, hpost⟩ := ih before post rfl
      have hstop : t.stop = offset + byteLength (gap ++ t.text.toList) := by
        rw [Placed.stop, hstart, byteLength_append, byteLength_text, Nat.add_assoc]
      refine ⟨gap ++ t.text.toList ++ a, g, b, by simp, hg, ?_, ?_⟩
      · rw [List.getLast?_cons, Option.map_some, Option.getD_some, byteLength_append, ← Nat.add_assoc,
          ← hstop, ← hbefore]
        cases before.getLast? <;> rfl
      · rw [List.append_assoc _ a g, byteLength_append _ (a ++ g), ← Nat.add_assoc, ← hstop, ← hpost]
        congr 1
        rw [hstop, Nat.add_assoc, ← byteLength_append]
        congr 2
        simp

end Scan

/-- **Cutting a text.** The tokens of a text lie one after another inside it, none of them empty,
and each place holds just the token's text. No token is an attribute, and a documentation comment
opens with two stars and says something. What lies before the first token, between two tokens and
after the last one is a sequence of things that are passed over. -/
theorem scan_partition {text : List Char} {run : Run} (h : scan text = .ok run) :
    (∀ t ∈ run, t.start < t.stop ∧ t.stop ≤ byteLength text ∧
      IsBoundary text t.start ∧ IsBoundary text t.stop ∧
      slice t.start t.stop text = t.text.toList ∧ ¬"#[".toList <+: t.text.toList ∧
      (t.isDoc = true → "/**".toList <+: t.text.toList ∧ t.text ≠ "/**/")) ∧
    run.Pairwise (fun a b => a.start < b.start ∧ a.stop ≤ b.start) ∧
    ∀ before post, run = before ++ post →
      Skipped (dropBytes (Run.startIn text post) text)
        (slice (Run.stop before) (Run.startIn text post) text) := by
  have hlaid : Laid 0 text run := laid_of_scanFrom h
  have hpositive : ∀ t ∈ run, t.start < t.stop := by
    intro t ht
    obtain ⟨-, -, -, -, hne, -⟩ := hlaid.place t ht
    have hpos := byteLength_pos hne
    rw [byteLength_text] at hpos
    exact Nat.lt_add_of_pos_right hpos
  refine ⟨fun t ht => ?_, ?_, fun before post heq => ?_⟩
  · obtain ⟨u, v, rfl, hstart, hne, htext⟩ := hlaid.place t ht
    have hstart : t.start = byteLength u := by rw [hstart, Nat.zero_add]
    have hstop : t.stop = byteLength (u ++ t.text.toList) := by
      rw [Placed.stop, hstart, byteLength_append, byteLength_text]
    refine ⟨hpositive t ht, ?_, ⟨u, t.text.toList ++ v, by simp, hstart⟩,
      ⟨u ++ t.text.toList, v, rfl, hstop⟩, ?_, htext.noAttribute, htext.documents⟩
    · rw [hstop, byteLength_append _ v]
      exact Nat.le_add_right _ _
    · rw [hstart, hstop, slice_append]
  · refine hlaid.ordered.imp_of_mem fun {a b} ha _ hab => ⟨?_, hab⟩
    exact Nat.lt_of_lt_of_le (hpositive a ha) hab
  · obtain ⟨a, g, b, rfl, hg, hbefore, hpost⟩ := hlaid.gap before post heq
    rw [Nat.zero_add] at hbefore hpost
    rw [Nat.zero_add] at hpost
    have hstop : Run.stop before = byteLength a := hbefore
    have hstart : Run.startIn (a ++ g ++ b) post = byteLength (a ++ g) := hpost
    rw [hstop, hstart, dropBytes_append, slice_append]
    exact hg

/-- Offsets count bytes: the comment between `f` and `(` takes eight of them. -/
theorem scan_partition_comment :
    ∃ run, scan "<?php #[A(']')] f/* é */(1)".toList = .ok run ∧
      run.tokens = [⟨.name, "f"⟩, .symbol "(", ⟨.int, "1"⟩, .symbol ")"] ∧
      run.map Placed.start = [16, 25, 26, 27] ∧ run.Pairwise (fun a b => a.stop ≤ b.start) ∧
      Skipped "f/* é */(1)".toList "<?php #[A(']')] ".toList ∧
      Skipped "(1)".toList "/* é */".toList := by
  have hscan : scan "<?php #[A(']')] f/* é */(1)".toList =
      .ok ([⟨⟨.name, "f"⟩, 16⟩] ++ [⟨.symbol "(", 25⟩, ⟨⟨.int, "1"⟩, 26⟩, ⟨.symbol ")", 27⟩]) := by
    cbv
  obtain ⟨-, hordered, hgaps⟩ := scan_partition hscan
  refine ⟨_, hscan, by decide, by decide, hordered.imp And.right, ?_, ?_⟩
  · have hgap := hgaps [] _ rfl
    have hafter : dropBytes 16 "<?php #[A(']')] f/* é */(1)".toList = "f/* é */(1)".toList := by
      decide +kernel
    have hslice : slice 0 16 "<?php #[A(']')] f/* é */(1)".toList = "<?php #[A(']')] ".toList := by
      decide +kernel
    rw [← hafter, ← hslice]
    exact hgap
  · have hgap := hgaps [_] _ rfl
    have hafter : dropBytes 25 "<?php #[A(']')] f/* é */(1)".toList = "(1)".toList := by
      decide +kernel
    have hslice : slice 17 25 "<?php #[A(']')] f/* é */(1)".toList = "/* é */".toList := by
      decide +kernel
    rw [← hafter, ← hslice]
    exact hgap

end CurryGen

import CurryGen.Proofs.Token.Munch

/-!
# Reading a text

`Scans text ts` says by rules that `ts` are the tokens of `text`. A rule passes over one blank, or
takes what `found` finds, so a run of blanks may be lengthened or shortened without touching the
derivation of the rest.

* `scans_iff`: the rules and `scan` agree, so a text has at most one list of tokens.
* `Scans.stands`: every token of a text is found as a whole when it stands alone.
* `Scans.append_newline`: two texts with a line feed between them have the tokens of both.
* `Token.erased`: a token, no matter what it says if it is a documentation comment.
-/

namespace CurryGen

namespace Scan

/-- The tokens of a text, by rules. -/
inductive Scans : List Char → List Token → Prop
  | nil : Scans [] []
  | space {c : Char} {cs : List Char} {ts : List Token} :
      isSpace c = true → Scans cs ts → Scans (c :: cs) ts
  | skip {c : Char} {w rest : List Char} {ts : List Token} :
      isSpace c = false → found c (w ++ rest) = .skipped w.length → Scans rest ts →
      Scans (c :: (w ++ rest)) ts
  | token {c : Char} {w rest : List Char} {kind : Token.Kind} {ts : List Token} :
      found c (w ++ rest) = .token kind w.length → Scans rest ts →
      Scans (c :: (w ++ rest)) (⟨kind, String.ofList (c :: w)⟩ :: ts)

/-! ## The rules and the scan -/

theorem found_space {c : Char} (hc : isSpace c = true) (cs : List Char) :
    found c cs = .skipped (count isSpace cs) := by
  rw [found, if_pos hc, blanks]

theorem isSpace_of_found {c : Char} {cs : List Char} {kind : Token.Kind} {n : Nat}
    (h : found c cs = .token kind n) : isSpace c = false := by
  cases hc : isSpace c with
  | true =>
    rw [found_space hc] at h
    cases h
  | false => rfl

theorem drop_count (p : Char → Bool) (cs : List Char) : cs.drop (count p cs) = cs.dropWhile p := by
  induction cs with
  | nil => rfl
  | cons c cs ih =>
    rw [count, List.takeWhile_cons, List.dropWhile_cons]
    split
    · exact ih
    · rfl

theorem scanFrom_space {c : Char} (hc : isSpace c = true) (cs : List Char) (offset : Nat) :
    scanFrom offset (c :: cs) = scanFrom (offset + c.utf8Size) cs := by
  rw [scanFrom, found_space hc]
  simp only
  cases cs with
  | nil => rw [count, List.takeWhile_nil, List.length_nil, List.drop_nil, scanFrom, scanFrom]
  | cons d ds =>
    cases hd : isSpace d with
    | true =>
      have hcount : count isSpace (d :: ds) = count isSpace ds + 1 := by
        rw [count, List.takeWhile_cons_of_pos hd, List.length_cons, count]
      rw [scanFrom, found_space hd]
      simp only [hcount, List.take_succ_cons, List.drop_succ_cons, Text.byteLength, Nat.add_assoc]
    | false =>
      have hcount : count isSpace (d :: ds) = 0 := by
        rw [count, List.takeWhile_cons_of_neg (by simp [hd]), List.length_nil]
      simp only [hcount, List.take_zero, List.drop_zero, Text.byteLength, Nat.add_zero]

theorem exists_scanFrom {text : List Char} {ts : List Token} (h : Scans text ts) (offset : Nat) :
    ∃ run, scanFrom offset text = .ok run ∧ run.tokens = ts := by
  induction h generalizing offset with
  | nil => exact ⟨[], by rw [scanFrom], rfl⟩
  | space hc _ ih =>
    rw [scanFrom_space hc]
    exact ih _
  | @skip c w rest ts _ hfound _ ih =>
    rw [scanFrom, hfound]
    simp only [List.drop_left]
    exact ih _
  | @token c w rest kind ts hfound _ ih =>
    obtain ⟨run, hrun, htokens⟩ := ih (offset + Text.byteLength (c :: w))
    refine ⟨⟨⟨kind, String.ofList (c :: w)⟩, offset⟩ :: run, ?_, ?_⟩
    · rw [scanFrom, hfound]
      simp only [List.drop_left, List.take_left, hrun]
      rfl
    · rw [← htokens]
      rfl

/-- Taking what was found at the head of a text leaves the rest. -/
theorem exists_eq_append {c : Char} {cs : List Char} (h : (found c cs).isStuck = false) :
    ∃ w rest, cs = w ++ rest ∧ w.length = (found c cs).more :=
  ⟨cs.take (found c cs).more, cs.drop (found c cs).more, (List.take_append_drop _ cs).symm,
    List.length_take_of_le (found_le_length h)⟩

/-- Induction along a scan that succeeds. A run of blanks is passed over one by one. -/
theorem scanFrom_induction {P : Nat → List Char → Run → Prop} (nil : ∀ offset, P offset [] [])
    (space : ∀ offset c cs run, isSpace c = true → P (offset + c.utf8Size) cs run →
      P offset (c :: cs) run)
    (skip : ∀ offset c w rest run, isSpace c = false → found c (w ++ rest) = .skipped w.length →
      P (offset + Text.byteLength (c :: w)) rest run → P offset (c :: (w ++ rest)) run)
    (token : ∀ offset c w rest kind run, found c (w ++ rest) = .token kind w.length →
      scanFrom (offset + Text.byteLength (c :: w)) rest = .ok run →
      P (offset + Text.byteLength (c :: w)) rest run →
      P offset (c :: (w ++ rest)) (⟨⟨kind, String.ofList (c :: w)⟩, offset⟩ :: run))
    {offset : Nat} {text : List Char} {run : Run} (h : scanFrom offset text = .ok run) :
    P offset text run := by
  induction hn : text.length using Nat.strongRecOn generalizing offset text run with
  | ind n ih =>
    cases text with
    | nil =>
      rw [scanFrom] at h
      cases h
      exact nil offset
    | cons c cs =>
      have hlt : cs.length < n := by
        rw [← hn]
        exact Nat.lt_succ_self _
      cases hc : isSpace c with
      | true =>
        rw [scanFrom_space hc] at h
        exact space offset c cs run hc (ih cs.length hlt h rfl)
      | false =>
        have hstuck : (found c cs).isStuck = false := by
          rw [scanFrom] at h
          split at h
          · simp [*, Found.isStuck]
          · simp [*, Found.isStuck]
          · cases h
        obtain ⟨w, rest, rfl, hw⟩ := exists_eq_append hstuck
        have hrest : rest.length < n := by
          refine Nat.lt_of_le_of_lt ?_ hlt
          rw [List.length_append]
          exact Nat.le_add_left _ _
        cases hfound : found c (w ++ rest) with
        | skipped k =>
          rw [hfound] at hw
          obtain rfl : w.length = k := hw
          rw [scanFrom, hfound] at h
          simp only [List.drop_left, List.take_left] at h
          exact skip offset c w rest run hc hfound (ih rest.length hrest h rfl)
        | token kind k =>
          rw [hfound] at hw
          obtain rfl : w.length = k := hw
          rw [scanFrom, hfound] at h
          simp only [List.drop_left, List.take_left] at h
          cases htail : scanFrom (offset + Text.byteLength (c :: w)) rest with
          | error e =>
            rw [htail] at h
            cases h
          | ok tail =>
            rw [htail] at h
            cases h
            exact token offset c w rest kind tail hfound htail (ih rest.length hrest htail rfl)
        | stuck k =>
          rw [hfound] at hstuck
          cases hstuck

theorem scans_of_scanFrom {offset : Nat} {text : List Char} {run : Run}
    (h : scanFrom offset text = .ok run) : Scans text run.tokens := by
  refine scanFrom_induction (P := fun _ text run => Scans text run.tokens) ?_ ?_ ?_ ?_ h
  · exact fun _ => .nil
  · exact fun _ _ _ _ hc ih => .space hc ih
  · exact fun _ _ _ _ _ hc hfound ih => .skip hc hfound ih
  · exact fun _ _ _ _ _ _ hfound _ ih => .token hfound ih

theorem scans_iff_scanFrom {text : List Char} {ts : List Token} (offset : Nat) :
    Scans text ts ↔ ∃ run, scanFrom offset text = .ok run ∧ run.tokens = ts := by
  constructor
  · exact fun h => exists_scanFrom h offset
  · intro hright
    obtain ⟨run, hrun, rfl⟩ := hright
    exact scans_of_scanFrom hrun

/-- The rules give exactly the tokens that `scan` gives. -/
theorem scans_iff {text : List Char} {ts : List Token} :
    Scans text ts ↔ ∃ run, scan text = .ok run ∧ run.tokens = ts :=
  scans_iff_scanFrom 0

/-- A text has at most one list of tokens. -/
theorem Scans.unique {text : List Char} {ts ts' : List Token} (h : Scans text ts)
    (h' : Scans text ts') : ts = ts' := by
  obtain ⟨run, hrun, rfl⟩ := scans_iff.1 h
  obtain ⟨run', hrun', rfl⟩ := scans_iff.1 h'
  rw [hrun] at hrun'
  cases hrun'
  rfl

theorem scans_space_iff {c : Char} (hc : isSpace c = true) {cs : List Char} {ts : List Token} :
    Scans (c :: cs) ts ↔ Scans cs ts := by
  rw [scans_iff_scanFrom 0, scanFrom_space hc, ← scans_iff_scanFrom]

theorem Scans.isStuck_eq_false {c : Char} {cs : List Char} {ts : List Token}
    (h : Scans (c :: cs) ts) : (found c cs).isStuck = false := by
  cases h with
  | space hc _ =>
    rw [found_space hc]
    rfl
  | skip _ hfound _ =>
    rw [hfound]
    rfl
  | token hfound _ =>
    rw [hfound]
    rfl

/-- The first token of a text that begins with a token. -/
theorem Scans.of_found {c : Char} {w rest : List Char} {kind : Token.Kind} {ts : List Token}
    (hfound : found c (w ++ rest) = .token kind w.length) (h : Scans (c :: (w ++ rest)) ts) :
    ∃ us, ts = ⟨kind, String.ofList (c :: w)⟩ :: us ∧ Scans rest us := by
  generalize htext : c :: (w ++ rest) = text at h
  cases h with
  | nil => cases htext
  | space hc _ =>
    cases htext
    rw [found_space hc] at hfound
    cases hfound
  | @skip _ w' rest' _ _ hfound' _ =>
    obtain ⟨rfl, htail⟩ := List.cons.inj htext
    rw [← htail, hfound] at hfound'
    cases hfound'
  | @token _ w' rest' kind' us hfound' hrest =>
    obtain ⟨rfl, htail⟩ := List.cons.inj htext
    rw [← htail, hfound] at hfound'
    obtain ⟨rfl, hlength⟩ := Found.token.inj hfound'
    obtain ⟨rfl, rfl⟩ := List.append_inj htail hlength
    exact ⟨us, rfl, hrest⟩

/-- What is passed over at the head of a text matters no more. -/
theorem Scans.of_skipped {c : Char} {w rest : List Char} {ts : List Token}
    (hc : isSpace c = false) (hfound : found c (w ++ rest) = .skipped w.length)
    (h : Scans (c :: (w ++ rest)) ts) : Scans rest ts := by
  generalize htext : c :: (w ++ rest) = text at h
  cases h with
  | nil => cases htext
  | space hc' _ =>
    cases htext
    rw [hc] at hc'
    cases hc'
  | @skip _ w' rest' _ _ hfound' hrest =>
    obtain ⟨rfl, htail⟩ := List.cons.inj htext
    rw [← htail, hfound] at hfound'
    obtain ⟨rfl, rfl⟩ := List.append_inj htail (Found.skipped.inj hfound')
    exact hrest
  | @token _ w' rest' kind' us hfound' _ =>
    obtain ⟨rfl, htail⟩ := List.cons.inj htext
    rw [← htail, hfound] at hfound'
    cases hfound'

/-! ## Tokens by themselves -/

/-- The text of `t`, followed by `y`, begins with just the token `t`. -/
def Stands (t : Token) (y : List Char) : Prop :=
  ∃ c w, t.text.toList = c :: w ∧ found c (w ++ y) = .token t.kind w.length

theorem Stands.alone {t : Token} {y : List Char} (h : Stands t y) : Stands t [] := by
  obtain ⟨c, w, htext, hfound⟩ := h
  exact ⟨c, w, htext, by rw [List.append_nil]; exact found_alone hfound rfl rfl⟩

theorem Stands.scans {t : Token} {y : List Char} {ts : List Token} (h : Stands t y)
    (hy : Scans y ts) : Scans (t.text.toList ++ y) (t :: ts) := by
  obtain ⟨c, w, htext, hfound⟩ := h
  have ht : t = ⟨t.kind, String.ofList (c :: w)⟩ := by
    rw [← htext, String.ofList_toList]
  rw [htext, ht]
  exact .token hfound hy

theorem Stands.scans_iff {t : Token} {y : List Char} {ts : List Token} (h : Stands t y) :
    Scans (t.text.toList ++ y) (t :: ts) ↔ Scans y ts := by
  refine ⟨fun hscans => ?_, h.scans⟩
  obtain ⟨c, w, htext, hfound⟩ := h
  rw [htext] at hscans
  obtain ⟨us, heq, hrest⟩ := Scans.of_found hfound hscans
  rw [(List.cons.inj heq).2]
  exact hrest

theorem stands_ofList {c : Char} {w rest : List Char} {kind : Token.Kind}
    (h : found c (w ++ rest) = .token kind w.length) :
    Stands ⟨kind, String.ofList (c :: w)⟩ rest :=
  ⟨c, w, String.toList_ofList, h⟩

/-- Every token of a text is found as a whole when it stands alone. -/
theorem Scans.stands {text : List Char} {ts : List Token} (h : Scans text ts) :
    ∀ t ∈ ts, Stands t [] := by
  induction h with
  | nil => simp
  | space _ _ ih => exact ih
  | skip _ _ _ ih => exact ih
  | token hfound _ ih =>
    intro t ht
    rcases List.mem_cons.1 ht with rfl | ht
    · exact (stands_ofList hfound).alone
    · exact ih t ht

/-- A token that is no symbol stands before a character that continues neither names nor numbers. -/
theorem Stands.append_stop {t : Token} (h : Stands t []) (ht : t.kind ≠ .symbol) {d : Char}
    (hd : isStop d = true) (y : List Char) : Stands t (d :: y) := by
  obtain ⟨c, w, htext, hfound⟩ := h
  rw [List.append_nil] at hfound
  exact ⟨c, w, htext, found_append_stop hd (.inr rfl) ht hfound y⟩

/-- A symbol stands before `y` unless the two begin with something longer. -/
theorem Stands.append_symbol_iff {t : Token} (h : Stands t []) (ht : t.kind = .symbol)
    (y : List Char) :
    Stands t y ↔ ∀ s ∈ marks ++ symbols, s.toList <+: t.text.toList ++ y →
      s.toList.length ≤ t.text.toList.length := by
  obtain ⟨c, w, htext, hfound⟩ := h
  rw [List.append_nil, ht] at hfound
  rw [htext, List.length_cons, ← found_append_symbol_iff hfound]
  constructor
  · intro hleft
    obtain ⟨c', w', htext', hfound'⟩ := hleft
    rw [htext] at htext'
    cases htext'
    rw [← ht]
    exact hfound'
  · exact fun hy => ⟨c, w, htext, by rw [ht]; exact hy⟩

/-- The text of a symbol is one of `symbols`. -/
theorem Stands.mem_symbols {t : Token} (h : Stands t []) (ht : t.kind = .symbol) :
    t.text ∈ symbols := by
  obtain ⟨c, w, htext, hfound⟩ := h
  rw [List.append_nil, ht] at hfound
  have hno : ∀ m ∈ marks, ¬m.toList <+: c :: w := fun m hm hfront => found_mark hm hfront _ hfound
  rw [found_eq_symbolAt hfound hno] at hfound
  obtain ⟨-, s, hs, hfront, hlength, -⟩ := symbolAt_eq_token_iff.1 hfound
  have heq : s.toList = t.text.toList := htext ▸ hfront.eq_of_length hlength
  rwa [← String.toList_inj.1 heq]

/-- A symbol that is the first token of a text in which no mark precedes it stands there. -/
theorem Stands.of_scans_symbol {t : Token} {y : List Char} {ts : List Token} (h : Stands t [])
    (ht : t.kind = .symbol) (hmarks : ∀ m ∈ marks, ¬m.toList <+: t.text.toList ++ y)
    (hscans : Scans (t.text.toList ++ y) (t :: ts)) : Stands t y := by
  obtain ⟨c, w, htext, hfound⟩ := h
  rw [List.append_nil, ht] at hfound
  rw [htext] at hmarks hscans
  rw [List.cons_append] at hscans
  have hstuck := hscans.isStuck_eq_false
  have hat : found c (w ++ y) = symbolAt c (w ++ y) := found_eq_symbolAt hfound hmarks
  obtain ⟨k, hk⟩ := symbolAt_eq_token (hat ▸ hstuck)
  obtain ⟨w', rest, heq, hlength⟩ := exists_eq_append hstuck
  rw [hat, hk] at hlength
  cases hlength
  rw [heq] at hscans hat hk
  obtain ⟨us, hus, -⟩ := Scans.of_found (hat.trans hk) hscans
  have htext' : t.text.toList = c :: w' := by
    rw [(List.cons.inj hus).1, String.toList_ofList]
  obtain rfl : w = w' := (List.cons.inj (htext.symm.trans htext')).2
  obtain rfl : y = rest := List.append_cancel_left heq
  exact ⟨c, w, htext, by rw [ht, hat, hk]⟩

/-! ## Texts one after another -/

/-- Two texts with a line feed between them have the tokens of both. -/
theorem Scans.append_newline {u v : List Char} {ts us : List Token} (h : Scans u ts)
    (hv : Scans v us) : Scans (u ++ '\n' :: v) (ts ++ us) := by
  induction h with
  | nil => exact .space rfl hv
  | space hc _ ih => exact .space hc ih
  | @skip c w rest ts hc hfound _ ih =>
    rw [List.cons_append, List.append_assoc]
    refine .skip hc ?_ ih
    rw [← List.append_assoc, found_append_newline hc (by rw [hfound]; rfl), hfound]
  | @token c w rest kind ts hfound _ ih =>
    have hc := isSpace_of_found hfound
    rw [List.cons_append, List.append_assoc, List.cons_append]
    refine .token ?_ ih
    rw [← List.append_assoc, found_append_newline hc (by rw [hfound]; rfl), hfound]

end Scan

/-! ## Documentation comments -/

theorem Run.tokens_cons (t : Placed) (ts : Run) :
    Run.tokens (t :: ts) = t.toToken :: ts.tokens := rfl

theorem Run.tokens_append (a b : Run) : Run.tokens (a ++ b) = a.tokens ++ b.tokens := List.map_append

theorem Run.tokens_code (ts : Run) : ts.code.tokens = ts.tokens.filter (!·.isDoc) := by
  rw [Run.tokens, Run.tokens, Run.code, List.filter_map]
  rfl

theorem Run.code_append (a b : Run) : Run.code (a ++ b) = a.code ++ b.code := List.filter_append a b

theorem Run.code_cons_of_isDoc {t : Placed} (ht : t.isDoc = true) (ts : Run) :
    Run.code (t :: ts) = ts.code :=
  List.filter_cons_of_neg (by simp [ht])

theorem Run.code_cons {t : Placed} (ht : t.isDoc = false) (ts : Run) :
    Run.code (t :: ts) = t :: ts.code :=
  List.filter_cons_of_pos (by simp [ht])

/-- A token without the text of a documentation comment. -/
def Token.erased (t : Token) : Token := if t.isDoc then ⟨.doc, ""⟩ else t

namespace Token

theorem erased_doc (text : String) : Token.erased ⟨.doc, text⟩ = ⟨.doc, ""⟩ := rfl

theorem filter_code_cons {t : Token} (ht : t.isDoc = false) (ts : List Token) :
    (t :: ts).filter (!·.isDoc) = t :: ts.filter (!·.isDoc) :=
  List.filter_cons_of_pos (by rw [ht]; rfl)

/-- What asks of documentation comments nothing more cannot tell erased tokens from others. -/
theorem apply_erased {α : Type} {f : Token → α} (hf : ∀ text, f ⟨.doc, text⟩ = f ⟨.doc, ""⟩)
    (t : Token) : f t.erased = f t := by
  obtain ⟨kind, text⟩ := t
  cases kind with
  | doc => exact (hf text).symm
  | _ => rfl

theorem eq_of_erased {α : Type} {f : Token → α} (hf : ∀ text, f ⟨.doc, text⟩ = f ⟨.doc, ""⟩)
    {t t' : Token} (h : t.erased = t'.erased) : f t = f t' := by
  rw [← apply_erased hf t, h, apply_erased hf t']

/-- Without documentation comments, it does not matter what they say. -/
theorem filter_code_erased (ts : List Token) :
    (ts.map Token.erased).filter (!·.isDoc) = ts.filter (!·.isDoc) := by
  induction ts with
  | nil => rfl
  | cons t ts ih =>
    rw [List.map_cons, List.filter_cons, List.filter_cons, @apply_erased _ isDoc fun _ => rfl, ih]
    cases hdoc : t.isDoc with
    | true => rfl
    | false => simp [Token.erased, hdoc]

end Token

end CurryGen

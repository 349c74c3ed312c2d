import CurryGen.Proofs.Token.Reflow

/-!
# Parts of a source

The offsets of tokens cut a source exactly: the text from one token through another has just the
tokens between them.

* `Passes`: how far a scan has come in a text, with what it has found so far.
* `exists_passes_through`, `exists_passes_stuck`: what a scan has passed over when it has read a token,
  and when it gets stuck.
* `exists_scanFrom_at`, `exists_scans_through`: a scan can begin at any token and end with any.
* `Statement.scans_sourceText`: the text that `Statement.sourceText` takes has just the tokens of its
  run.
-/

namespace CurryGen

open Scan Text Statement

namespace Text

theorem byteLength_append (u v : List Char) : byteLength (u ++ v) = byteLength u + byteLength v := by
  induction u with
  | nil => simp [byteLength]
  | cons c u ih => rw [List.cons_append, byteLength, byteLength, ih, Nat.add_assoc]

theorem takeBytes_zero (u : List Char) : takeBytes 0 u = [] := by
  cases u with
  | nil => rfl
  | cons c u => rw [takeBytes, if_pos (Char.utf8Size_pos c)]

theorem dropBytes_zero (u : List Char) : dropBytes 0 u = u := by
  cases u with
  | nil => rfl
  | cons c u => rw [dropBytes, if_pos (Char.utf8Size_pos c)]

theorem takeBytes_append (u v : List Char) : takeBytes (byteLength u) (u ++ v) = u := by
  induction u with
  | nil => exact takeBytes_zero v
  | cons c u ih =>
    rw [List.cons_append, byteLength, takeBytes, if_neg (by omega), Nat.add_sub_cancel_left, ih]

theorem dropBytes_append (u v : List Char) : dropBytes (byteLength u) (u ++ v) = v := by
  induction u with
  | nil => exact dropBytes_zero v
  | cons c u ih =>
    rw [List.cons_append, byteLength, dropBytes, if_neg (by omega), Nat.add_sub_cancel_left, ih]

theorem slice_append (u v w : List Char) :
    slice (byteLength u) (byteLength (u ++ v)) (u ++ v ++ w) = v := by
  rw [slice, List.append_assoc, dropBytes_append, byteLength_append, Nat.add_sub_cancel_left,
    takeBytes_append]

end Text

theorem byteLength_eq (u : List Char) : byteLength u = (String.ofList u).utf8ByteSize := by
  induction u with
  | nil => rfl
  | cons c u ih =>
    rw [byteLength, ih, ← List.singleton_append, String.ofList_append, String.utf8ByteSize_append,
      ← String.singleton_eq_ofList, String.utf8ByteSize_singleton]

namespace Scan

theorem scanFrom_skip {offset : Nat} {c : Char} {w rest : List Char}
    (hfound : found c (w ++ rest) = .skipped w.length) :
    scanFrom offset (c :: (w ++ rest)) = scanFrom (offset + byteLength (c :: w)) rest := by
  rw [scanFrom, hfound]
  simp only [List.drop_left, List.take_left]

theorem scanFrom_token {offset : Nat} {c : Char} {w rest : List Char} {kind : Token.Kind}
    {run : Run} (hfound : found c (w ++ rest) = .token kind w.length)
    (hrest : scanFrom (offset + byteLength (c :: w)) rest = .ok run) :
    scanFrom offset (c :: (w ++ rest)) = .ok (⟨⟨kind, String.ofList (c :: w)⟩, offset⟩ :: run) := by
  rw [scanFrom, hfound]
  simp only [List.drop_left, List.take_left, hrest]
  rfl

/-! ## Fronts of a text -/

/-- A scan of a text passes over a front of it when `rest` follows: whatever it finds in the front ends
in the front, and `run` is what it finds. -/
inductive Passes (rest : List Char) : Nat → List Char → Run → Prop
  | nil {offset : Nat} : Passes rest offset [] []
  | space {offset : Nat} {c : Char} {front : List Char} {run : Run} : isSpace c = true →
      Passes rest (offset + c.utf8Size) front run → Passes rest offset (c :: front) run
  | skip {offset : Nat} {c : Char} {w front : List Char} {run : Run} :
      found c (w ++ (front ++ rest)) = .skipped w.length →
      Passes rest (offset + byteLength (c :: w)) front run → Passes rest offset (c :: (w ++ front)) run
  | token {offset : Nat} {c : Char} {w front : List Char} {kind : Token.Kind} {run : Run} :
      found c (w ++ (front ++ rest)) = .token kind w.length →
      Passes rest (offset + byteLength (c :: w)) front run →
      Passes rest offset (c :: (w ++ front)) (⟨⟨kind, String.ofList (c :: w)⟩, offset⟩ :: run)

/-- What a scan finds in a front that it passes over does not depend on what follows. -/
theorem Passes.scanFrom {rest front : List Char} {offset : Nat} {run : Run}
    (h : Passes rest offset front run) : scanFrom offset front = .ok run := by
  induction h with
  | nil => rw [Scan.scanFrom]
  | space hc _ ih => rwa [scanFrom_space hc]
  | skip hfound _ ih => rwa [scanFrom_skip (found_within hfound rfl rfl)]
  | token hfound _ ih => exact scanFrom_token (found_within hfound rfl rfl) ih

/-- A scan of a text passes over what ends with one of its tokens. -/
theorem exists_passes_through {offset : Nat} {text : List Char} {run : Run}
    (h : scanFrom offset text = .ok run) : ∀ before last post, run = before ++ last :: post →
      ∃ front rest, text = front ++ rest ∧ last.stop = offset + byteLength front ∧
        Passes rest offset front (before ++ [last]) ∧ last.text.toList <:+ front := by
  refine scanFrom_induction (P := fun offset text run => ∀ before last post,
      run = before ++ last :: post → ∃ front rest, text = front ++ rest ∧
        last.stop = offset + byteLength front ∧ Passes rest offset front (before ++ [last]) ∧
        last.text.toList <:+ front) ?nil ?space ?skip ?token h
  case nil =>
    intro _ before last post heq
    cases before <;> cases heq
  case space =>
    intro offset c cs run hc ih before last post heq
    obtain ⟨front, rest, rfl, hstop, hpasses, hlast⟩ := ih before last post heq
    refine ⟨c :: front, rest, rfl, ?_, .space hc hpasses, hlast.trans (List.suffix_cons c front)⟩
    rw [hstop, byteLength, Nat.add_assoc]
  case skip =>
    intro offset c w rest run _ hfound ih before last post heq
    obtain ⟨front, rest', rfl, hstop, hpasses, hlast⟩ := ih before last post heq
    refine ⟨c :: (w ++ front), rest', by simp, ?_, .skip hfound hpasses, ?_⟩
    · rw [hstop, ← List.cons_append, byteLength_append, Nat.add_assoc]
    · exact hlast.trans (List.suffix_append (c :: w) front)
  case token =>
    intro offset c w rest kind run hfound _ ih before last post heq
    cases before with
    | nil =>
      obtain ⟨rfl, rfl⟩ := List.cons.inj heq
      refine ⟨c :: (w ++ []), rest, by simp, ?_, .token hfound .nil, by simp⟩
      rw [Placed.stop, byteLength_eq, List.append_nil]
    | cons t before =>
      obtain ⟨rfl, htail⟩ := List.cons.inj heq
      obtain ⟨front, rest', rfl, hstop, hpasses, hlast⟩ := ih before last post htail
      refine ⟨c :: (w ++ front), rest', by simp, ?_, .token hfound hpasses, ?_⟩
      · rw [hstop, ← List.cons_append, byteLength_append, Nat.add_assoc]
      · exact hlast.trans (List.suffix_append (c :: w) front)

/-- The text of a source through one of its tokens has just the tokens up to that one. -/
theorem exists_scans_through {offset : Nat} {text : List Char} {run : Run}
    (h : scanFrom offset text = .ok run) : ∀ r last post, run = r ++ last :: post →
      ∃ b rest, text = b ++ rest ∧ last.stop = offset + byteLength b ∧
        Scans b (Run.tokens (r ++ [last])) ∧ last.text.toList <:+ b := by
  intro r last post heq
  obtain ⟨b, rest, htext, hstop, hpasses, hlast⟩ := exists_passes_through h r last post heq
  exact ⟨b, rest, htext, hstop, scans_of_scanFrom hpasses.scanFrom, hlast⟩

/-- A scan that gets stuck has passed over all the text before. -/
theorem exists_passes_stuck {offset : Nat} {text : List Char} {stuck : Stuck}
    (h : scanFrom offset text = .error stuck) :
    ∃ front c cs k run, text = front ++ c :: cs ∧ Passes (c :: cs) offset front run ∧
      found c cs = .stuck k ∧
        stuck = ⟨offset + byteLength front, String.ofList (c :: cs.take k)⟩ := by
  induction hn : text.length using Nat.strongRecOn generalizing offset text with
  | ind n ih =>
    cases text with
    | nil =>
      rw [scanFrom] at h
      cases h
    | cons c cs =>
      cases hstuck : (found c cs).isStuck with
      | true =>
        cases hfound : found c cs with
        | stuck k =>
          rw [scanFrom, hfound] at h
          cases h
          exact ⟨[], c, cs, k, [], rfl, .nil, hfound, rfl⟩
        | _ =>
          rw [hfound] at hstuck
          cases hstuck
      | false =>
        obtain ⟨w, rest, rfl, hw⟩ := exists_eq_append hstuck
        have hrest : rest.length < n := by
          rw [← hn, List.length_cons, List.length_append]
          omega
        have hstep (front : List Char) : offset + byteLength (c :: w) + byteLength front =
            offset + byteLength (c :: (w ++ front)) := by
          rw [← List.cons_append, byteLength_append, Nat.add_assoc]
        cases hfound : found c (w ++ rest) with
        | stuck k =>
          rw [hfound] at hstuck
          cases hstuck
        | skipped k =>
          rw [hfound] at hw
          obtain rfl : w.length = k := hw
          rw [scanFrom_skip hfound] at h
          obtain ⟨front, d, ds, k, run, rfl, hpasses, hhead, hplace⟩ := ih _ hrest h rfl
          exact ⟨c :: (w ++ front), d, ds, k, run, by simp, .skip hfound hpasses, hhead,
            by rw [hplace, hstep]⟩
        | token kind k =>
          rw [hfound] at hw
          obtain rfl : w.length = k := hw
          cases htail : scanFrom (offset + byteLength (c :: w)) rest with
          | ok tail =>
            rw [scanFrom_token hfound htail] at h
            cases h
          | error e =>
            rw [scanFrom, hfound] at h
            simp only [List.drop_left, List.take_left, htail] at h
            cases h
            obtain ⟨front, d, ds, k, run, rfl, hpasses, hhead, hplace⟩ := ih _ hrest htail rfl
            exact ⟨c :: (w ++ front), d, ds, k, _, by simp, .token hfound hpasses, hhead,
              by rw [hplace, hstep]⟩

/-! ## From a token on -/

/-- A scan can be begun at any of the tokens of a text. -/
theorem exists_scanFrom_at {offset : Nat} {text : List Char} {run : Run}
    (h : scanFrom offset text = .ok run) : ∀ before first post, run = before ++ first :: post →
      ∃ a b, text = a ++ b ∧ first.start = offset + byteLength a ∧
        scanFrom first.start b = .ok (first :: post) := by
  refine scanFrom_induction (P := fun offset text run => ∀ before first post,
      run = before ++ first :: post → ∃ a b, text = a ++ b ∧
        first.start = offset + byteLength a ∧ scanFrom first.start b = .ok (first :: post))
    ?nil ?space ?skip ?token h
  case nil =>
    intro _ before first post heq
    cases before <;> cases heq
  case space =>
    intro offset c cs run _ ih before first post heq
    obtain ⟨a, b, rfl, hstart, hscan⟩ := ih before first post heq
    exact ⟨c :: a, b, rfl, by rw [hstart, byteLength, Nat.add_assoc], hscan⟩
  case skip =>
    intro offset c w rest run _ _ ih before first post heq
    obtain ⟨a, b, rfl, hstart, hscan⟩ := ih before first post heq
    exact ⟨c :: w ++ a, b, by simp, by rw [hstart, byteLength_append, Nat.add_assoc], hscan⟩
  case token =>
    intro offset c w rest kind run hfound hrest ih before first post heq
    cases before with
    | nil =>
      obtain ⟨rfl, rfl⟩ := List.cons.inj heq
      exact ⟨[], c :: (w ++ rest), rfl, rfl, scanFrom_token hfound hrest⟩
    | cons t before =>
      obtain ⟨rfl, htail⟩ := List.cons.inj heq
      obtain ⟨a, b, rfl, hstart, hscan⟩ := ih before first post htail
      exact ⟨c :: w ++ a, b, by simp, by rw [hstart, byteLength_append, Nat.add_assoc], hscan⟩

/-- The last character of a token is no blank. -/
theorem Stands.endsNonblank {t : Token} (h : Stands t []) : endsNonblank t.text.toList = true := by
  obtain ⟨c, w, htext, hfound⟩ := h
  rw [htext]
  by_cases hstring : t.kind = .string
  · rw [hstring] at hfound
    exact (string_reflow hfound 0 0).2.1
  · by_cases hdoc : t.kind = .doc
    · rw [hdoc] at hfound
      obtain ⟨ds, -, rfl, hclose, -⟩ := exists_of_found_doc hfound
      refine endsNonblank_of_getLast? (c := '/') ?_ rfl
      rw [List.getLast?_cons_cons, List.getLast?_cons, getLast?_of_closeComment hclose]
      rfl
    · have hlast : (c :: w).getLast? = some ((c :: w).getLast (by simp)) :=
        List.getLast?_eq_some_getLast (by simp)
      exact endsNonblank_of_getLast? hlast
        (nonblank_of_found hfound hstring hdoc _ (List.getLast_mem _))

end Scan

namespace Statement

theorem getLast?_of_isSuffix {α : Type} {u v : List α} (h : u <:+ v) (hu : u ≠ []) :
    v.getLast? = u.getLast? := by
  obtain ⟨b, rfl⟩ := h
  exact List.getLast?_append_of_ne_nil b hu

/-- The text that a run of neighbouring tokens takes in its source has just these tokens, and ends
with the last one. -/
theorem scans_sourceText {text : List Char} {run r : Run} (h : scan text = .ok run)
    (hneighbours : r <:+: run) (hr : r ≠ []) :
    Scans (sourceText text r) r.tokens ∧ endsNonblank (sourceText text r) = true := by
  obtain ⟨before, post, rfl⟩ := hneighbours
  obtain ⟨first, inner, rfl⟩ := List.exists_cons_of_ne_nil hr
  obtain ⟨init, last, hlast⟩ := List.eq_nil_or_concat (first :: inner) |>.resolve_left hr
  obtain ⟨a, b, rfl, hstart, hscan⟩ :=
    exists_scanFrom_at h before first (inner ++ post) (by simp)
  have hsplit : first :: (inner ++ post) = init ++ last :: post := by
    rw [← List.cons_append, hlast, List.concat_eq_append, List.append_assoc]
    rfl
  obtain ⟨b, rest, rfl, hstop, hscans, hsuffix⟩ := exists_scans_through hscan init last post hsplit
  have hslice : sourceText (a ++ (b ++ rest)) (first :: inner) = b := by
    have hend : (first :: inner).getLast? = some last := by
      rw [hlast, List.concat_eq_append, List.getLast?_concat]
    have hoffset : first.start = byteLength a := by rw [hstart, Nat.zero_add]
    simp only [sourceText, List.head?_cons, hend]
    rw [hstop, hoffset, ← byteLength_append, ← List.append_assoc, slice_append]
  have htokens : Run.tokens (first :: inner) = Run.tokens (init ++ [last]) := by
    rw [hlast, List.concat_eq_append]
  rw [hslice, htokens]
  refine ⟨hscans, ?_⟩
  have hstands : Stands last.toToken [] := hscans.stands _ (by simp [Run.tokens])
  have hne : last.text.toList ≠ [] := by
    obtain ⟨c, w, htext, -⟩ := hstands
    rw [htext]
    simp
  have hends := hstands.endsNonblank
  rw [endsNonblank] at hends ⊢
  rwa [getLast?_of_isSuffix hsuffix hne]

end Statement

end CurryGen

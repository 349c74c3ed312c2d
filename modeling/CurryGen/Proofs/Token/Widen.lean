import CurryGen.Proofs.Token.Slice

/-!
# Reading texts with indented lines

`Widened` texts have more spaces after some of their line feeds. Those line feeds are given by their
offsets, so that a text may have others, in front of which nothing is put in.

* `Widened.closeComment`, `Widened.closeAttribute`: comments and attributes may be widened.
* `exists_scans_widened`: a widened text has the tokens of the text, up to the texts of documentation
  comments, if no string holds one of the line feeds.
-/

namespace CurryGen.Scan

open Text

/-- `Widened J offset u v`: the text `v` is `u`, whose first character has the given offset, with
spaces put in after line feeds at offsets in `J`. -/
inductive Widened (J : Nat → Prop) : Nat → List Char → List Char → Prop
  | nil (offset : Nat) : Widened J offset [] []
  | char {offset : Nat} {c : Char} {u v : List Char} :
      Widened J (offset + c.utf8Size) u v → Widened J offset (c :: u) (c :: v)
  | newline {offset : Nat} {b u v : List Char} :
      J offset → (∀ d ∈ b, d = ' ') → Widened J (offset + '\n'.utf8Size) u v →
      Widened J offset ('\n' :: u) ('\n' :: (b ++ v))

namespace Widened

variable {J : Nat → Prop} {offset : Nat} {u v w rest x : List Char}

theorem refl (offset : Nat) (u : List Char) : Widened J offset u u := by
  induction u generalizing offset with
  | nil => exact .nil offset
  | cons c u ih => exact .char (ih _)

theorem append (hw : Widened J offset w v) (h : Widened J (offset + byteLength w) rest x) :
    Widened J offset (w ++ rest) (v ++ x) := by
  induction hw with
  | nil => exact h
  | char _ ih => exact .char (ih (by rwa [Nat.add_assoc]))
  | newline hJ hb _ ih =>
    rw [List.cons_append, List.cons_append, List.append_assoc]
    exact .newline hJ hb (ih (by rwa [Nat.add_assoc]))

/-- A widened text is cut where the text is. -/
theorem split (h : Widened J offset (w ++ rest) x) :
    ∃ w' rest', x = w' ++ rest' ∧ Widened J offset w w' ∧
      Widened J (offset + byteLength w) rest rest' := by
  induction w generalizing offset x with
  | nil => exact ⟨[], x, rfl, .nil offset, h⟩
  | cons c w ih =>
    cases h with
    | char h =>
      obtain ⟨w', rest', rfl, hw, hrest⟩ := ih h
      exact ⟨c :: w', rest', rfl, .char hw, by rwa [Nat.add_assoc] at hrest⟩
    | @newline _ b _ _ hJ hb h =>
      obtain ⟨w', rest', rfl, hw, hrest⟩ := ih h
      exact ⟨'\n' :: (b ++ w'), rest', by simp, .newline hJ hb hw, by rwa [Nat.add_assoc] at hrest⟩

/-- Nothing is put in where none of the line feeds stands. -/
theorem eq_self (h : Widened J offset u v)
    (hno : ∀ o, J o → ¬(offset ≤ o ∧ o < offset + byteLength u)) : v = u := by
  induction h with
  | nil => rfl
  | char _ ih =>
    refine congrArg _ (ih fun o ho hin => hno o ho ?_)
    rw [byteLength]
    omega
  | newline hJ _ _ _ =>
    refine absurd ⟨Nat.le_refl _, ?_⟩ (hno _ hJ)
    rw [byteLength]
    have hpos := Char.utf8Size_pos '\n'
    omega

theorem eq_of_notMem (h : Widened J offset u v) (hno : '\n' ∉ u) : v = u := by
  induction h with
  | nil => rfl
  | char _ ih => exact congrArg _ (ih fun hmem => hno (List.mem_cons_of_mem _ hmem))
  | newline => simp at hno

theorem head?_eq (h : Widened J offset u v) : v.head? = u.head? := by
  cases h <;> rfl

theorem length_le (h : Widened J offset u v) : u.length ≤ v.length := by
  induction h with
  | nil => exact Nat.le_refl _
  | char _ ih => exact Nat.succ_le_succ ih
  | newline _ _ _ ih =>
    simp only [List.length_cons, List.length_append]
    omega

theorem isBlank_of_spaces {b : List Char} (hb : ∀ d ∈ b, d = ' ') : ∀ d ∈ b, isBlank d = true :=
  fun d hd => by rw [hb d hd]; rfl

theorem isSpace_of_spaces {b : List Char} (hb : ∀ d ∈ b, d = ' ') : ∀ d ∈ b, isSpace d = true :=
  fun d hd => by rw [hb d hd]; rfl

/-! ## Comments and attributes -/

theorem closeComment (h : Widened J offset u v) (hu : closeComment u = some u.length) :
    closeComment v = some v.length := by
  induction h with
  | nil => cases hu
  | @char _ c u v h ih =>
    by_cases hclose : c = '*' ∧ u.head? = some '/'
    · rw [closeComment_close hclose] at hu
      obtain ⟨rest, rfl⟩ := List.head?_eq_some_iff.1 hclose.2
      obtain rfl : rest = [] := List.eq_nil_of_length_eq_zero (by simpa using hu)
      rw [h.eq_of_notMem (by simp), closeComment_close hclose]
      rfl
    · rw [closeComment_cons hclose, List.length_cons] at hu
      rw [closeComment_cons (by rwa [h.head?_eq]), ih (eq_some_of_map_add hu)]
      rfl
  | newline _ hb _ ih =>
    rw [closeComment_cons (by simp), List.length_cons] at hu
    rw [closeComment_cons (by simp), closeComment_blanks (isBlank_of_spaces hb),
      ih (eq_some_of_map_add hu), List.length_cons, List.length_append, Nat.add_comm (List.length _)]
    rfl

theorem closeAttribute (h : Widened J offset u v) {s : AttributeState} (hs : s.Sound)
    (hu : closeAttribute s u = some u.length) : closeAttribute s v = some v.length := by
  induction h generalizing s with
  | nil => cases hu
  | @char _ c u v h ih =>
    cases hnext : s.next c with
    | none =>
      have hlength : some 1 = some (c :: u).length := by rw [← hu, Scan.closeAttribute, hnext]
      obtain rfl : u = [] := List.eq_nil_of_length_eq_zero (by simpa using hlength)
      cases h
      rw [Scan.closeAttribute, hnext]
      rfl
    | some s' =>
      rw [closeAttribute_cons hnext, List.length_cons] at hu
      rw [closeAttribute_cons hnext, ih (hs.next hnext) (eq_some_of_map_add hu)]
      rfl
  | newline _ hb _ ih =>
    have hnext := hs.next_blank (c := '\n') rfl
    rw [closeAttribute_cons hnext, List.length_cons] at hu
    rw [closeAttribute_cons hnext, closeAttribute_blanks hs (isBlank_of_spaces hb),
      ih hs.shown (eq_some_of_map_add hu), List.length_cons, List.length_append,
      Nat.add_comm (List.length _)]
    rfl

/-- Whether a comment documents does not change. -/
theorem documents_iff (h : Widened J offset u v) (hu : Scan.closeComment u = some u.length) :
    (v.head? = some '*' ∧ v.length ≠ 2) ↔ (u.head? = some '*' ∧ u.length ≠ 2) := by
  have hle := h.length_le
  have hshort (hlength : u.length ≤ 2) : v = u :=
    h.eq_of_notMem (by rw [eq_of_closeComment_of_length_le hu hlength]; decide)
  rw [h.head?_eq]
  refine and_congr_right fun _ => not_congr ⟨fun hv => ?_, fun hu => ?_⟩
  · rw [← hshort (by omega), hv]
  · rw [hshort (by omega), hu]

/-! ## What is found -/

theorem exists_front (h : Widened J offset u v) :
    ∃ a y, u = a ++ y ∧ (v = a ∨ ∃ z, v = a ++ '\n' :: z) := by
  induction h with
  | nil => exact ⟨[], [], rfl, .inl rfl⟩
  | @char _ c _ _ _ ih =>
    obtain ⟨a, y, rfl, hv⟩ := ih
    exact ⟨c :: a, y, rfl, hv.imp (fun hv => by rw [hv]) fun ⟨z, hv⟩ => ⟨z, by rw [hv]; rfl⟩⟩
  | newline => exact ⟨[], _, rfl, .inr ⟨_, rfl⟩⟩

variable {c : Char}

/-- What was found is found again when what follows it is widened. -/
theorem found_eq (h : Widened J offset rest x) (hc : isSpace c = false) {r : Found}
    (hfound : found c (w ++ rest) = r) (hstuck : r.isStuck = false) (hw : r.more = w.length) :
    found c (w ++ x) = r := by
  obtain ⟨a, y, rfl, hx⟩ := h.exists_front
  exact found_front hc hfound hstuck hw hx

/-- What is passed over is passed over when widened. -/
theorem found_skipped (hw : Widened J offset w v) {offset' : Nat} (hrest : Widened J offset' rest x)
    (hc : isSpace c = false) (hfound : found c (w ++ rest) = .skipped w.length) :
    found c (v ++ x) = .skipped v.length := by
  cases skippedAt_of_found hc hfound with
  | tag htag =>
    have hblank := nonblank_of_tag htag
    rw [hw.eq_of_notMem fun hmem => by cases hblank _ (List.mem_cons_of_mem c hmem)]
    exact hrest.found_eq hc hfound rfl rfl
  | line _ hno _ =>
    rw [hw.eq_of_notMem hno]
    exact hrest.found_eq hc hfound rfl rfl
  | comment hslash hds hclose hplain =>
    subst hslash hds
    cases hw with | char hw =>
    rw [List.cons_append, found_comment (hw.closeComment hclose),
      if_neg fun hdoc => hplain ((hw.documents_iff hclose).1 hdoc)]
  | group hhash hds hclose =>
    subst hhash hds
    cases hw with | char hw =>
    rw [List.cons_append, found_attribute (hw.closeAttribute ⟨nofun, nofun⟩ hclose)]

/-- A documentation comment stays one when widened. -/
theorem found_doc (hw : Widened J offset w v)
    (hfound : found c (w ++ rest) = .token .doc w.length) (x : List Char) :
    found c (v ++ x) = .token .doc v.length := by
  obtain ⟨ds, rfl, rfl, hclose, hdoc⟩ := exists_of_found_doc hfound
  cases hw with | char hw =>
  rw [List.cons_append, found_comment (hw.closeComment hclose),
    if_pos ((hw.documents_iff hclose).2 hdoc)]

/-- Other tokens are not widened, if no string holds one of the line feeds. -/
theorem eq_self_of_token (hw : Widened J offset w v) {kind : Token.Kind}
    (hfound : found c (w ++ rest) = .token kind w.length) (hdoc : kind ≠ .doc)
    (hstring : kind = .string → ∀ o, J o → ¬(offset ≤ o ∧ o < offset + byteLength w)) : v = w := by
  by_cases hkind : kind = .string
  · exact hw.eq_self (hstring hkind)
  · have hblank := nonblank_of_found hfound hkind hdoc
    exact hw.eq_of_notMem fun hmem => by cases hblank _ (List.mem_cons_of_mem c hmem)

theorem of_cons (hc : isSpace c = false) (h : Widened J offset (c :: u) x) :
    ∃ v, x = c :: v ∧ Widened J (offset + c.utf8Size) u v := by
  cases h with
  | char h => exact ⟨_, rfl, h⟩
  | newline => cases hc

end Widened

/-- A widened text has the tokens of the text, up to the texts of documentation comments, if no
string holds one of the line feeds. -/
theorem exists_scans_widened {J : Nat → Prop} {offset : Nat} {text : List Char} {run : Run}
    (h : scanFrom offset text = .ok run)
    (hstrings : ∀ t ∈ run, t.kind = .string → ∀ o, J o → ¬(t.start ≤ o ∧ o < t.stop))
    {x : List Char} (hx : Widened J offset text x) :
    ∃ us, Scans x us ∧ us.map Token.erased = run.tokens.map Token.erased := by
  revert x hstrings
  refine scanFrom_induction (P := fun offset text run =>
      (∀ t ∈ run, t.kind = .string → ∀ o, J o → ¬(t.start ≤ o ∧ o < t.stop)) →
      ∀ {x}, Widened J offset text x →
        ∃ us, Scans x us ∧ us.map Token.erased = run.tokens.map Token.erased)
    ?nil ?space ?skip ?token h
  case nil =>
    intro _ _ _ hx
    cases hx
    exact ⟨[], .nil, rfl⟩
  case space =>
    intro offset c cs run hc ih hstrings x hx
    cases hx with
    | char hx =>
      obtain ⟨us, hus, herased⟩ := ih hstrings hx
      exact ⟨us, .space hc hus, herased⟩
    | newline _ hb hx =>
      obtain ⟨us, hus, herased⟩ := ih hstrings hx
      exact ⟨us, .space hc ((scans_spaces_iff (Widened.isSpace_of_spaces hb)).2 hus), herased⟩
  case skip =>
    intro offset c w rest run hc hfound ih hstrings x hx
    obtain ⟨y, rfl, hy⟩ := hx.of_cons hc
    obtain ⟨w', rest', rfl, hw, hrest⟩ := hy.split
    obtain ⟨us, hus, herased⟩ := ih hstrings (by rwa [Nat.add_assoc] at hrest)
    exact ⟨us, .skip hc (hw.found_skipped hrest hc hfound) hus, herased⟩
  case token =>
    intro offset c w rest kind run hfound _ ih hstrings x hx
    obtain ⟨y, rfl, hy⟩ := hx.of_cons (isSpace_of_found hfound)
    obtain ⟨w', rest', rfl, hw, hrest⟩ := hy.split
    obtain ⟨us, hus, herased⟩ := ih (fun t ht => hstrings t (List.mem_cons_of_mem _ ht))
      (by rwa [Nat.add_assoc] at hrest)
    by_cases hdoc : kind = .doc
    · subst hdoc
      refine ⟨_, .token (hw.found_doc hfound _) hus, ?_⟩
      rw [Run.tokens_cons, List.map_cons, List.map_cons, herased, Token.erased_doc,
        Token.erased_doc]
    · have hself : w' = w := by
        refine hw.eq_self_of_token hfound hdoc fun hkind o ho hin => ?_
        refine hstrings _ List.mem_cons_self hkind o ho ⟨?_, ?_⟩
        · exact Nat.le_trans (Nat.le_add_right _ _) hin.1
        · rw [Placed.stop, ← byteLength_eq, byteLength, ← Nat.add_assoc]
          exact hin.2
      subst hself
      have hagain := hrest.found_eq (isSpace_of_found hfound) hfound rfl rfl
      exact ⟨_, .token hagain hus, by rw [Run.tokens_cons, List.map_cons, List.map_cons, herased]⟩

end CurryGen.Scan

import CurryGen.ClassName
import CurryGen.Proofs.Text.Pieces
import CurryGen.Proofs.Token.Word

/-!
# Class names and their last segments

* `isClassName`: names as the source language has them, perhaps with a backslash in front.
* `isIdentifier_shortName`, `shortName_qualify`: what the last segment of a name is.
* `qualify_eq`, `qualify_eq_self_iff`: a namespace that is a name is put in front as it is, and only
  the global one changes nothing.
-/

namespace CurryGen

open Text Scan

/-! ## Pieces -/

theorem Text.pieces_of_forall {p : Char → Bool} {cs : List Char} (h : ∀ c ∈ cs, p c = false) :
    pieces p cs = [cs] := by
  induction cs with
  | nil => rfl
  | cons c cs ih =>
    obtain ⟨hc, hcs⟩ := List.forall_mem_cons.1 h
    rw [pieces, hc, ih hcs]
    rfl

theorem Text.pieces_append_cons {p : Char → Bool} {c : Char} (hc : p c = true) (u v : List Char) :
    pieces p (u ++ c :: v) = pieces p u ++ pieces p v := by
  induction u with
  | nil => simp [pieces, hc]
  | cons d u ih =>
    obtain ⟨first, rest, hu⟩ := List.exists_cons_of_ne_nil (pieces_ne_nil p u)
    rw [List.cons_append, pieces, pieces, ih, hu]
    split <;> rfl

/-- Every character that is not cut out is in a piece. -/
theorem Text.exists_mem_pieces {p : Char → Bool} {cs : List Char} {c : Char} (h : c ∈ cs)
    (hc : p c = false) : ∃ piece ∈ pieces p cs, c ∈ piece := by
  induction cs with
  | nil => cases h
  | cons d cs ih =>
    rw [pieces]
    split
    · rename_i hd
      rcases List.mem_cons.1 h with rfl | h
      · rw [hc] at hd
        cases hd
      · obtain ⟨piece, hpiece, hmem⟩ := ih h
        exact ⟨piece, List.mem_cons_of_mem _ hpiece, hmem⟩
    · obtain ⟨first, rest, hcs⟩ := List.exists_cons_of_ne_nil (pieces_ne_nil p cs)
      rw [hcs] at ih ⊢
      rcases List.mem_cons.1 h with rfl | h
      · exact ⟨_, List.mem_cons_self, List.mem_cons_self⟩
      · obtain ⟨piece, hpiece, hmem⟩ := ih h
        rcases List.mem_cons.1 hpiece with rfl | hpiece
        · exact ⟨_, List.mem_cons_self, List.mem_cons_of_mem d hmem⟩
        · exact ⟨piece, List.mem_cons_of_mem _ hpiece, hmem⟩

/-! ## Names -/

/-- Whether a text is a class name: identifiers with backslashes between them, and perhaps one in
front that stands for the root. -/
def isClassName (s : String) : Bool :=
  match splitAt '\\' s with
  | "" :: first :: rest => (first :: rest).all isIdentifier
  | segments => segments.all isIdentifier

variable {s t : String} {c : Char}

theorem splitAt_of_notMem (h : c ∉ s.toList) : splitAt c s = [s] := by
  have hpieces : pieces (· == c) s.toList = [s.toList] := pieces_of_forall fun d hd => by
    rw [beq_eq_false_iff_ne]
    rintro rfl
    exact h hd
  rw [splitAt, hpieces, List.map_singleton, String.ofList_toList]

theorem splitAt_append (c : Char) (s t : String) :
    splitAt c (s ++ String.singleton c ++ t) = splitAt c s ++ splitAt c t := by
  simp only [splitAt, String.toList_append, String.toList_singleton, List.append_assoc,
    List.singleton_append]
  rw [pieces_append_cons (by simp), List.map_append]

theorem splitAt_ne_nil (c : Char) (s : String) : splitAt c s ≠ [] := fun h =>
  pieces_ne_nil _ _ (List.map_eq_nil_iff.1 h)

theorem getLast?_splitAt (s : String) : (splitAt '\\' s).getLast? = some (shortName s) := by
  rw [shortName, List.getLast?_eq_getLast_of_ne_nil (splitAt_ne_nil '\\' s)]
  rfl

theorem shortName_append (s t : String) : shortName (s ++ "\\" ++ t) = shortName t := by
  have happend := splitAt_append '\\' s t
  rw [shortName, show "\\" = String.singleton '\\' from rfl, happend, List.getLast?_append,
    getLast?_splitAt]
  rfl

theorem shortName_of_notMem (h : '\\' ∉ s.toList) : shortName s = s := by
  rw [shortName, splitAt_of_notMem h]
  rfl

theorem isNameChar_of_isIdentifier (h : isIdentifier s = true) : ∀ c ∈ s.toList, isNameChar c := by
  obtain ⟨hstart, htail⟩ := Bool.and_eq_true_iff.1 h
  obtain ⟨c, hc, hstart⟩ := (Option.any_eq_true _ _).1 hstart
  obtain ⟨w, hw⟩ := List.head?_eq_some_iff.1 hc
  rw [hw, List.tail_cons, List.all_eq_true] at htail
  rw [hw]
  exact List.forall_mem_cons.2 ⟨isNameChar_of_isNameStart hstart, htail⟩

theorem backslash_notMem_of_isIdentifier (h : isIdentifier s = true) : '\\' ∉ s.toList := fun hmem =>
  absurd (isNameChar_of_isIdentifier h _ hmem) (by decide)

theorem isQualified_eq_false_iff : isQualified s = false ↔ '\\' ∉ s.toList := by
  simp [isQualified]

section ClassName

variable (h : isClassName s = true)
include h

/-- The segments are identifiers, but for an empty one in front of others. -/
theorem isIdentifier_of_mem_splitAt {segment : String} (hmem : segment ∈ splitAt '\\' s) :
    isIdentifier segment = true ∨ segment = "" ∧ ∃ rest, splitAt '\\' s = "" :: rest := by
  unfold isClassName at h
  split at h
  · rename_i first rest hsplit
    rw [hsplit] at hmem ⊢
    rcases List.mem_cons.1 hmem with rfl | hmem
    · exact .inr ⟨rfl, _, rfl⟩
    · exact .inl (List.all_eq_true.1 h _ hmem)
  · exact .inl (List.all_eq_true.1 h _ hmem)

theorem isIdentifier_shortName : isIdentifier (shortName s) = true := by
  have hlast := getLast?_splitAt s
  unfold isClassName at h
  split at h
  · rename_i first rest hsplit
    rw [hsplit, List.getLast?_cons_cons] at hlast
    exact List.all_eq_true.1 h _ (List.mem_of_getLast? hlast)
  · exact List.all_eq_true.1 h _ (List.mem_of_getLast? hlast)

/-- A class name is made of name characters and backslashes. -/
theorem isNameChar_of_isClassName {c : Char} (hc : c ∈ s.toList) : isNameChar c ∨ c = '\\' := by
  by_cases hslash : c = '\\'
  · exact .inr hslash
  obtain ⟨piece, hpiece, hmem⟩ := exists_mem_pieces (p := (· == '\\')) hc (by simpa using hslash)
  have hsegment : String.ofList piece ∈ splitAt '\\' s := List.mem_map_of_mem hpiece
  rcases isIdentifier_of_mem_splitAt h hsegment with hid | ⟨hempty, -⟩
  · exact .inl (isNameChar_of_isIdentifier hid c (by simpa using hmem))
  · rw [String.ofList_eq_empty_iff] at hempty
    rw [hempty] at hmem
    cases hmem

theorem space_notMem_of_isClassName : ' ' ∉ s.toList := fun hmem => by
  rcases isNameChar_of_isClassName h hmem with h | h
  · exact absurd h (by decide)
  · cases h

/-- A class name does not end in a backslash. -/
theorem getLast?_ne_backslash_of_isClassName : s.toList.getLast? ≠ some '\\' := by
  intro hlast
  obtain ⟨u, hu⟩ := List.getLast?_eq_some_iff.1 hlast
  have hs : s = String.ofList u ++ "\\" ++ "" := by
    rw [← String.toList_inj, hu]
    simp
  have hid := isIdentifier_shortName h
  rw [hs, shortName_append] at hid
  exact absurd hid (by decide)

end ClassName

theorem shortName_qualify {name : String} (h : isIdentifier name = true) (ns : String) :
    shortName (qualify ns name) = name := by
  rw [qualify]
  split
  · exact shortName_of_notMem (backslash_notMem_of_isIdentifier h)
  · rw [shortName_append, shortName_of_notMem (backslash_notMem_of_isIdentifier h)]

/-- A namespace that is a name is put in front as it is. -/
theorem qualify_eq {ns : String} (h : isClassName ns = true) (name : String) :
    qualify ns name = ns ++ "\\" ++ name := by
  have hne : ns ≠ "" := by
    rintro rfl
    exact absurd h (by decide)
  have hlast := getLast?_ne_backslash_of_isClassName h
  have hdrop : ns.toList.reverse.dropWhile (· == '\\') = ns.toList.reverse := by
    rw [List.getLast?_eq_head?_reverse] at hlast
    cases hr : ns.toList.reverse with
    | nil => rfl
    | cons c cs =>
      rw [hr, List.head?_cons, Ne, Option.some.injEq] at hlast
      exact List.dropWhile_cons_of_neg (by simpa using hlast)
  rw [qualify, if_neg hne, hdrop, List.reverse_reverse, String.ofList_toList]

/-- A name with one segment is itself in the global namespace alone. -/
theorem qualify_eq_self_iff {name : String} (h : '\\' ∉ name.toList) (ns : String) :
    qualify ns name = name ↔ ns = "" := by
  rw [qualify]
  split
  · rename_i hns
    exact iff_of_true rfl hns
  · rename_i hns
    refine iff_of_false (fun hsame => h ?_) hns
    rw [← hsame]
    simp

end CurryGen

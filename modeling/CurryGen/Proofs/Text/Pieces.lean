import CurryGen.Proofs.Text.Reflow

/-!
# Pieces of a text stand in it

What cutting and trimming leave of a text is a part of the text.

* `Text.notMem_of_mem_lines`: lines are not broken.
* `Text.isInfix_of_mem_lines`, `Text.trim_isInfix`: lines and trimmed texts stand in the text.
-/

namespace CurryGen.Text

theorem eq_false_of_mem_pieces {p : Char → Bool} {cs piece : List Char} (h : piece ∈ pieces p cs) :
    ∀ c ∈ piece, p c = false := by
  induction cs generalizing piece with
  | nil =>
    obtain rfl := List.mem_singleton.1 h
    exact nofun
  | cons c cs ih =>
    rw [pieces] at h
    split at h
    · rcases List.mem_cons.1 h with rfl | h
      · exact nofun
      · exact ih h
    · rename_i hc
      split at h
      · rename_i first rest hcs
        rw [hcs] at ih
        rcases List.mem_cons.1 h with rfl | h
        · exact List.forall_mem_cons.2 ⟨by simpa using hc, ih List.mem_cons_self⟩
        · exact ih (List.mem_cons_of_mem _ h)
      · rename_i hcs
        exact absurd hcs (pieces_ne_nil p cs)

/-- The first piece is what the text begins with. -/
theorem isPrefix_of_pieces {p : Char → Bool} {cs first : List Char} {rest : List (List Char)}
    (h : pieces p cs = first :: rest) : first <+: cs ∧ ∀ piece ∈ rest, piece <:+: cs := by
  induction cs generalizing first rest with
  | nil =>
    cases h
    exact ⟨List.prefix_rfl, nofun⟩
  | cons c cs ih =>
    obtain ⟨next, more, hcs⟩ := List.exists_cons_of_ne_nil (pieces_ne_nil p cs)
    obtain ⟨hnext, hmore⟩ := ih hcs
    have hlater {piece : List Char} (hpiece : piece <:+: cs) : piece <:+: c :: cs :=
      hpiece.trans (List.suffix_cons c cs).isInfix
    rw [pieces] at h
    split at h
    · cases h
      rw [hcs]
      refine ⟨ List.nil_prefix, List.forall_mem_cons.2 ⟨hlater hnext.isInfix, ?_⟩⟩
      exact fun piece hpiece => hlater (hmore piece hpiece)
    · rw [hcs] at h
      cases h
      exact ⟨List.cons_prefix_cons.2 ⟨rfl, hnext⟩, fun piece hpiece => hlater (hmore piece hpiece)⟩

theorem isInfix_of_mem_pieces {p : Char → Bool} {cs piece : List Char} (h : piece ∈ pieces p cs) :
    piece <:+: cs := by
  obtain ⟨first, rest, hcs⟩ := List.exists_cons_of_ne_nil (pieces_ne_nil p cs)
  obtain ⟨hfirst, hrest⟩ := isPrefix_of_pieces hcs
  rw [hcs] at h
  rcases List.mem_cons.1 h with rfl | h
  · exact hfirst.isInfix
  · exact hrest piece h

variable {cs line : List Char}

theorem mem_pieces_of_mem_lines (h : line ∈ lines cs) : line ∈ pieces (· == '\n') cs := by
  unfold lines at h
  simp only at h
  split at h
  · exact List.dropLast_subset _ h
  · exact h

theorem notMem_of_mem_lines (h : line ∈ lines cs) : '\n' ∉ line := fun hmem => by
  simpa using eq_false_of_mem_pieces (mem_pieces_of_mem_lines h) _ hmem

theorem isInfix_of_mem_lines (h : line ∈ lines cs) : line <:+: cs :=
  isInfix_of_mem_pieces (mem_pieces_of_mem_lines h)

/-! ## Trimming -/

theorem trim_isInfix (s : String) : (trim s).toList <:+: s.toList := by
  rw [trim, String.toList_ofList]
  exact (Statement.dropTrailingBlanks_isPrefix _).isInfix.trans (List.dropWhile_suffix _).isInfix

theorem trimEnd_isInfix (s : String) : (trimEnd s).toList <:+: s.toList := by
  rw [trimEnd, String.toList_ofList]
  exact (Statement.dropTrailingBlanks_isPrefix _).isInfix

theorem trimStart_isInfix (s : String) : (trimStart s).toList <:+: s.toList := by
  rw [trimStart, String.toList_ofList]
  exact (List.dropWhile_suffix _).isInfix

theorem after?_isInfix (front s : String) : ((after? front s).getD s).toList <:+: s.toList := by
  rw [after?]
  split
  · rw [Option.getD_some, String.toList_ofList]
    exact (List.drop_suffix _ _).isInfix
  · exact List.infix_rfl

end CurryGen.Text

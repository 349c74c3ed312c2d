import CurryGen.Token.Bracket

/-!
# Balanced tokens

The inside of a bracket group is balanced, and balanced tokens are passed over as a whole by
whatever counts brackets.

* `Token.balanced`: whether tokens close as many brackets as they open, and none too early.
* `Run.group?_eq_some_iff`: a group is a bracket, balanced tokens and a bracket.
* `Run.piecesFrom_append`: a separator after balanced tokens cuts.
-/

namespace CurryGen

namespace Token

/-- Whether tokens close `depth` more brackets than they open, and at no point more than that. -/
def balanced (depth : Nat) : List Token → Bool
  | [] => depth == 0
  | t :: ts => !(t.isClose && depth == 0) && balanced (t.depthAfter depth) ts

/-- A bracket that closes nothing outer counts the same at any depth. -/
theorem depthAfter_add {t : Token} {k : Nat} (h : (t.isClose && k == 0) = false) (d : Nat) :
    t.depthAfter (k + d) = t.depthAfter k + d := by
  unfold depthAfter
  cases hopen : t.isOpen with
  | true => simp [Nat.add_right_comm]
  | false =>
    cases hclose : t.isClose with
    | true =>
      have hk : k ≠ 0 := by simpa [hclose] using h
      simp only [Bool.false_eq_true, if_false, if_true]
      omega
    | false => simp

theorem balanced_cons {t : Token} {ts : List Token} {k : Nat} (h : balanced k (t :: ts) = true) :
    (t.isClose && k == 0) = false ∧ balanced (t.depthAfter k) ts = true := by
  rw [balanced, Bool.and_eq_true, Bool.not_eq_true'] at h
  exact h

theorem balanced_append {a b : List Token} {k : Nat} (h : balanced k a = true) (d : Nat) :
    balanced (k + d) (a ++ b) = balanced d b := by
  induction a generalizing k with
  | nil =>
    obtain rfl : k = 0 := by simpa [balanced] using h
    rw [Nat.zero_add, List.nil_append]
  | cons t a ih =>
    obtain ⟨hclose, hrest⟩ := balanced_cons h
    have hclose' : (t.isClose && k + d == 0) = false := by
      cases hd : t.isClose with
      | true =>
        have hk : k ≠ 0 := by simpa [hd] using hclose
        simp [hk]
      | false => rfl
    rw [List.cons_append, balanced, hclose', depthAfter_add hclose, ih hrest]
    rfl

theorem balanced_flatMap {α : Type} {f : α → List Token} {xs : List α}
    (h : ∀ x ∈ xs, balanced 0 (f x) = true) : balanced 0 (xs.flatMap f) = true := by
  induction xs with
  | nil => rfl
  | cons x xs ih =>
    rw [List.forall_mem_cons] at h
    exact (balanced_append h.1 0).trans (ih h.2)

/-- Documentation comments are no brackets. -/
theorem balanced_filter_code (k : Nat) (ts : List Token) :
    balanced k (ts.filter (!·.isDoc)) = balanced k ts := by
  induction ts generalizing k with
  | nil => rfl
  | cons t ts ih =>
    cases hdoc : t.isDoc with
    | true =>
      have hkind : t.kind = .doc := eq_of_beq hdoc
      have hopen : t.isOpen = false := by simp [isOpen, hkind]
      have hclose : t.isClose = false := by simp [isClose, hkind]
      rw [List.filter_cons_of_neg (by simp [hdoc]), ih, balanced, depthAfter, hopen, hclose]
      rfl
    | false => rw [List.filter_cons_of_pos (by simp [hdoc]), balanced, balanced, ih]

end Token

namespace Run

open Token

theorem exists_cons_of_tokens {ts : Run} {t : Token} {us : List Token}
    (h : ts.tokens = t :: us) : ∃ i rest, ts = ⟨t, i⟩ :: rest ∧ tokens rest = us := by
  obtain ⟨p, rest, rfl, rfl, hrest⟩ := List.map_eq_cons_iff.1 h
  exact ⟨p.start, rest, rfl, hrest⟩

theorem forall_of_tokens {ts : Run} {us : List Token} (h : ts.tokens = us) {P : Token → Prop}
    (hus : ∀ t ∈ us, P t) : ∀ t ∈ ts, P t.toToken := fun _ ht =>
  hus _ (h ▸ List.mem_map_of_mem ht)

theorem exists_append_of_tokens {ts : Run} {a b : List Token} (h : ts.tokens = a ++ b) :
    ∃ u v : Run, ts = u ++ v ∧ u.tokens = a ∧ v.tokens = b :=
  List.map_eq_append_iff.1 h

theorem closing?_eq_some_iff {depth : Nat} {ts inner rest : Run} :
    closing? depth ts = some (inner, rest) ↔
      ∃ close, ts = inner ++ close :: rest ∧ close.isClose = true ∧
        balanced depth inner.tokens = true := by
  induction ts generalizing depth inner with
  | nil => simp [closing?]
  | cons t ts ih =>
    rw [closing?]
    split
    · rename_i hend
      obtain ⟨hclose, hdepth⟩ := Bool.and_eq_true_iff.1 hend
      constructor
      · intro hnone
        cases hnone
        exact ⟨t, rfl, hclose, hdepth⟩
      · intro hright
        obtain ⟨close, heq, -, hbalanced⟩ := hright
        cases inner with
        | nil =>
          cases heq
          rfl
        | cons u inner =>
          obtain ⟨rfl, -⟩ := List.cons.inj heq
          have := (balanced_cons hbalanced).1
          rw [hend] at this
          cases this
    · rename_i hmore
      rw [Option.map_eq_some_iff]
      constructor
      · intro hleft
        obtain ⟨⟨inner', rest'⟩, h, heq⟩ := hleft
        cases heq
        obtain ⟨close, rfl, hclose, hbalanced⟩ := ih.1 h
        refine ⟨close, rfl, hclose, ?_⟩
        have hmore : (t.isClose && depth == 0) = false := Bool.not_eq_true _ ▸ hmore
        rw [tokens, List.map_cons, balanced, hmore]
        exact hbalanced
      · intro hright
        obtain ⟨close, heq, hclose, hbalanced⟩ := hright
        cases inner with
        | nil =>
          cases heq
          exact absurd (Bool.and_eq_true_iff.2 ⟨hclose, hbalanced⟩) hmore
        | cons u inner =>
          obtain ⟨rfl, rfl⟩ := List.cons.inj heq
          exact ⟨(inner, rest), ih.2 ⟨close, rfl, hclose, (balanced_cons hbalanced).2⟩, rfl⟩

/-- A group is an opening bracket, balanced tokens and a closing bracket. -/
theorem group?_eq_some_iff {ts inner rest : Run} :
    group? ts = some (inner, rest) ↔
      ∃ opening close, ts = opening :: (inner ++ close :: rest) ∧ opening.isOpen = true ∧
        close.isClose = true ∧ balanced 0 inner.tokens = true := by
  cases ts with
  | nil => simp [group?]
  | cons t ts =>
    rw [group?]
    split
    · rename_i hopen
      rw [closing?_eq_some_iff]
      constructor
      · intro hleft
        obtain ⟨close, rfl, hclose, hbalanced⟩ := hleft
        exact ⟨t, close, rfl, hopen, hclose, hbalanced⟩
      · intro hright
        obtain ⟨opening, close, heq, -, hclose, hbalanced⟩ := hright
        exact ⟨close, (List.cons.inj heq).2, hclose, hbalanced⟩
    · rename_i hopen
      constructor
      · intro hnone
        cases hnone
      · intro hright
        obtain ⟨opening, close, heq, hopen', -⟩ := hright
        rw [(List.cons.inj heq).1] at hopen
        exact absurd hopen' hopen

/-! ## Pieces -/

variable {separator : String}

theorem piecesFrom_ne_nil (depth : Nat) (ts : Run) : piecesFrom separator depth ts ≠ [] := by
  cases ts with
  | nil => simp [piecesFrom]
  | cons t ts =>
    rw [piecesFrom]
    split
    · simp
    · cases piecesFrom separator (t.depthAfter depth) ts <;> simp [push]

theorem push_append {t : Placed} {pieces : List Run} (h : pieces ≠ []) (more : List Run) :
    push t (pieces ++ more) = push t pieces ++ more := by
  cases pieces with
  | nil => exact absurd rfl h
  | cons piece pieces => rfl

theorem foldr_push (a p : Run) (pieces : List Run) :
    a.foldr push (p :: pieces) = (a ++ p) :: pieces := by
  induction a with
  | nil => rfl
  | cons t a ih => rw [List.foldr_cons, ih, push, List.cons_append]

theorem flatten_push (t : Placed) (pieces : List Run) :
    (push t pieces).flatten = t :: pieces.flatten := by
  cases pieces <;> rfl

/-- Only separators are in no piece. -/
theorem flatten_piecesFrom_sublist (separator : String) (depth : Nat) (ts : Run) :
    (piecesFrom separator depth ts).flatten.Sublist ts := by
  induction ts generalizing depth with
  | nil => exact List.Sublist.refl _
  | cons t ts ih =>
    rw [piecesFrom]
    split
    · exact (ih depth).cons t
    · rw [flatten_push]
      exact (ih _).cons_cons t

/-- A separator after balanced tokens cuts. -/
theorem piecesFrom_append {a : Run} {k : Nat} (h : balanced k a.tokens = true) {t : Placed}
    (ht : t.cutsAt separator 0 = true) (rest : Run) :
    piecesFrom separator k (a ++ t :: rest) =
      piecesFrom separator k a ++ piecesFrom separator 0 rest := by
  induction a generalizing k with
  | nil =>
    obtain rfl : k = 0 := by simpa [tokens, balanced] using h
    rw [List.nil_append, piecesFrom, piecesFrom, if_pos ht]
    rfl
  | cons u a ih =>
    have hrest := (balanced_cons h).2
    rw [List.cons_append, piecesFrom, piecesFrom]
    split
    · rename_i hcut
      have hdepth : u.depthAfter k = k := by
        simp only [cutsAt, Bool.and_eq_true, Bool.not_eq_true'] at hcut
        rw [depthAfter, hcut.1.1.2, hcut.1.2]
        rfl
      rw [hdepth] at hrest
      rw [ih hrest, List.cons_append]
    · rw [ih hrest]
      exact push_append (piecesFrom_ne_nil _ _) _

end Run

end CurryGen

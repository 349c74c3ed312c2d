import CurryGen.Proofs.Token.Reading
import CurryGen.Proofs.Token.Separator
import CurryGen.Proofs.Tree.Statement
import Mathlib.Data.List.Chain

/-!
# Statements of a block

`Statement.split` cuts a block into the runs of its statements. The runs are neighbours in the block,
none is empty, and which they are depends on the tokens alone: not on where these stand, nor on the
texts of documentation comments.

* `exists_cut`: the statements that have ended, and what is left over.
* `split_flatten_split`: the statements of a block, one after another, are split as the block is.
* `map_outline_split`: the same tokens are split into the same statements.
* `split_code_iff`: without its documentation comments a block has the same statements, unless one of
  them goes on with the next.
* `splitFrom_of_uncut`: without a semicolon outside brackets no statement ends.
-/

namespace CurryGen.Statement

open Run Token

variable {depth : Nat} {head : Option Placed} {ts : Run}

theorem splitFrom_of_endsAt {t : Placed} (h : endsAt depth head ts.head? t = true) :
    splitFrom depth head (t :: ts) = [t] :: splitFrom 0 none ts := by
  rw [splitFrom, if_pos h]

/-- The first token of a statement that is no documentation comment, once `t` has been read. -/
def headAfter (head : Option Placed) (t : Placed) : Option Placed :=
  if head.isNone && !t.isDoc then some t else head

theorem splitFrom_of_not_endsAt {t : Placed} (h : endsAt depth head ts.head? t = false) :
    splitFrom depth head (t :: ts) =
      push t (splitFrom (t.depthAfter depth) (headAfter head t) ts) := by
  rw [splitFrom, if_neg (by simp [h])]
  rfl

theorem isDoc_of_endsAt {next : Option Placed} {t : Placed} (h : endsAt depth head next t = true) :
    t.isDoc = false := by
  have hkind : t.kind = .symbol := by
    simp only [endsAt, cutsAt, isSymbol, Bool.or_eq_true, Bool.and_eq_true, beq_iff_eq] at h
    rcases h with h | h
    · exact h.2.1
    · exact h.1.1.1.1
  simp [isDoc, hkind]

/-- A statement that has ended, with the token that ended it. -/
def Ended (p : Run) : Prop := ∃ a t, p = a ++ [t] ∧ t.isDoc = false

theorem Ended.cons {p : Run} (h : Ended p) (t : Placed) : Ended (t :: p) := by
  obtain ⟨a, u, rfl, hu⟩ := h
  exact ⟨t :: a, u, rfl, hu⟩

theorem Ended.ne_nil {p : Run} (h : Ended p) : p ≠ [] := by
  obtain ⟨a, t, rfl, -⟩ := h
  simp

/-- A block is cut into the statements `done`, which have ended, and `rest`, which has not. -/
structure Cut (depth : Nat) (head : Option Placed) (ts : Run) (done : List Run) (rest : Run) :
    Prop where
  pieces : splitFrom depth head ts = done ++ [rest]
  flatten : done.flatten ++ rest = ts
  ended : ∀ p ∈ done, Ended p
  /-- Without the rest, the statements are the same. -/
  again : splitFrom depth head done.flatten = done ++ [[]]

theorem endsAt_front {u v : Run} {t : Placed} (h : endsAt depth head (u ++ v).head? t = true) :
    endsAt depth head u.head? t = true := by
  cases u with
  | cons d u => exact h
  | nil =>
    unfold endsAt at h ⊢
    simp only [Bool.or_eq_true, Bool.and_eq_true] at h ⊢
    exact h.imp_right fun hblock => ⟨hblock.1, rfl⟩

theorem Cut.ends {t : Placed} {done : List Run} {rest : Run} (h : Cut 0 none ts done rest)
    (hend : endsAt depth head ts.head? t = true) : Cut depth head (t :: ts) ([t] :: done) rest where
  pieces := by rw [splitFrom_of_endsAt hend, h.pieces, List.cons_append]
  flatten := by rw [List.flatten_cons, List.append_assoc, h.flatten, List.singleton_append]
  ended := List.forall_mem_cons.2 ⟨⟨[], t, rfl, isDoc_of_endsAt hend⟩, h.ended⟩
  again := by
    rw [← h.flatten] at hend
    rw [List.flatten_cons, List.singleton_append, splitFrom_of_endsAt (endsAt_front hend), h.again,
      List.cons_append]

theorem Cut.goesOn {t : Placed} {p : Run} {done : List Run} {rest : Run}
    (h : Cut (t.depthAfter depth) (headAfter head t) ts (p :: done) rest)
    (hend : endsAt depth head ts.head? t = false) :
    Cut depth head (t :: ts) ((t :: p) :: done) rest where
  pieces := by rw [splitFrom_of_not_endsAt hend, h.pieces]; rfl
  flatten := by rw [← h.flatten]; rfl
  ended := by
    obtain ⟨hp, hdone⟩ := List.forall_mem_cons.1 h.ended
    exact List.forall_mem_cons.2 ⟨hp.cons t, hdone⟩
  again := by
    -- what has ended is not empty, so `t` is followed by the same token as before
    have hnext : ts.head? = (p :: done).flatten.head? := by
      obtain ⟨u, p, rfl⟩ := List.exists_cons_of_ne_nil (h.ended p (by simp)).ne_nil
      rw [← h.flatten]
      rfl
    rw [hnext] at hend
    have hagain := splitFrom_of_not_endsAt hend
    rw [h.again] at hagain
    exact hagain

theorem exists_cut (depth : Nat) (head : Option Placed) (ts : Run) :
    ∃ done rest, Cut depth head ts done rest := by
  induction ts generalizing depth head with
  | nil => exact ⟨[], [], rfl, rfl, by simp, rfl⟩
  | cons t ts ih =>
    cases hend : endsAt depth head ts.head? t with
    | true =>
      obtain ⟨done, rest, h⟩ := ih 0 none
      exact ⟨_, rest, h.ends hend⟩
    | false =>
      obtain ⟨done, rest, h⟩ := ih (t.depthAfter depth) (headAfter head t)
      cases done with
      | nil =>
        refine ⟨[], t :: rest, ?_, by rw [← h.flatten]; rfl, by simp, rfl⟩
        rw [splitFrom_of_not_endsAt hend, h.pieces]
        rfl
      | cons p done => exact ⟨_, rest, h.goesOn hend⟩

/-- What is left over is a statement unless it holds documentation comments alone. -/
theorem split_of_splitFrom {done : List Run} {rest : Run}
    (h : splitFrom 0 none ts = done ++ [rest]) :
    split ts = if rest.all (·.isDoc) then done else done ++ [rest] := by
  unfold split
  simp only [h, List.getLast?_concat, List.dropLast_concat]

theorem Cut.split_eq {done : List Run} {rest : Run} (h : Cut 0 none ts done rest) :
    split ts = if rest.all (·.isDoc) then done else done ++ [rest] :=
  split_of_splitFrom h.pieces

/-- The statements of a block are neighbours in it, and none is empty. -/
theorem neighbours_of_mem_split {p : Run} (hp : p ∈ split ts) : p <:+: ts ∧ p ≠ [] := by
  obtain ⟨done, rest, h⟩ := exists_cut 0 none ts
  have hall : (done ++ [rest]).flatten = ts := by
    rw [List.flatten_append, List.flatten_singleton, h.flatten]
  have hmem : p ∈ done ++ [rest] ∧ p ≠ [] := by
    rw [h.split_eq] at hp
    split at hp
    · exact ⟨List.mem_append_left _ hp, (h.ended p hp).ne_nil⟩
    · rename_i hrest
      refine ⟨hp, ?_⟩
      rcases List.mem_append.1 hp with hp | hp
      · exact (h.ended p hp).ne_nil
      · obtain rfl := List.mem_singleton.1 hp
        rintro rfl
        exact hrest rfl
  refine ⟨?_, hmem.2⟩
  rw [← hall]
  exact List.infix_of_mem_flatten hmem.1

/-- The statements of a block, one after another, are split as the block is. -/
theorem split_flatten_split (ts : Run) : split (split ts).flatten = split ts := by
  obtain ⟨done, rest, h⟩ := exists_cut 0 none ts
  by_cases hrest : rest.all (·.isDoc) = true
  · have hagain : Cut 0 none done.flatten done [] := ⟨h.again, by simp, h.ended, h.again⟩
    rw [h.split_eq, if_pos hrest, hagain.split_eq]
    rfl
  · rw [h.split_eq, if_neg hrest, List.flatten_append, List.flatten_singleton, h.flatten, h.split_eq,
      if_neg hrest]

/-- Documentation comments at the end of a block are all that is in none of its statements. -/
theorem code_flatten_split (ts : Run) : Run.code (split ts).flatten = ts.code := by
  obtain ⟨done, rest, h⟩ := exists_cut 0 none ts
  rw [h.split_eq]
  split
  · rename_i hrest
    have hnil : rest.code = [] := by
      rw [Run.code, List.filter_eq_nil_iff]
      intro t ht
      simpa using List.all_eq_true.1 hrest t ht
    rw [← h.flatten, code_append, hnil, List.append_nil]
  · rw [List.flatten_append, List.flatten_singleton, h.flatten]

/-- The statements of a block have its tokens, documentation comments left out. -/
theorem flatMap_readStatements (source : List Char) (ts : Run) :
    (readStatements source ts).flatMap (·.tokens) = ts.code := by
  rw [readStatements_eq_map, List.flatMap_map, ← code_flatten_split, Run.code, List.filter_flatten,
    ← List.flatMap_def]
  exact congrArg (List.flatMap · (split ts)) (funext (tokens_readStatement source))

theorem flatMap_tokens_readStatements (source : List Char) (ts : Run) :
    (readStatements source ts).flatMap (·.tokens.tokens) = ts.code.tokens := by
  rw [← flatMap_readStatements source ts, Run.tokens, List.map_flatMap]
  rfl

/-! ## Tokens alone -/

/-- The tokens of a run, no matter what its documentation comments say. -/
def outline (ts : Run) : List Token := ts.map (·.erased)

theorem outline_eq (ts : Run) : outline ts = ts.tokens.map Token.erased := by
  rw [tokens, List.map_map]
  rfl

theorem tokens_code_eq_outline (ts : Run) : ts.code.tokens = (outline ts).filter (!·.isDoc) := by
  rw [tokens_code, outline_eq, filter_code_erased]

theorem any_isKeywordIn_congr {o o' : Option Placed}
    (h : o.map (·.erased) = o'.map (·.erased)) (words : List String) :
    o.any (·.isKeywordIn words) = o'.any (·.isKeywordIn words) := by
  cases o with
  | none =>
    cases o' with
    | none => rfl
    | some t' => cases h
  | some t =>
    cases o' with
    | none => cases h
    | some t' => exact @eq_of_erased _ (isKeywordIn words) (fun _ => rfl) _ _ (Option.some.inj h)

/-- Whether a statement ends does not depend on what documentation comments say. -/
theorem endsAt_congr {head' next next' : Option Placed} {t t' : Placed}
    (hhead : head.map (·.erased) = head'.map (·.erased))
    (hnext : next.map (·.erased) = next'.map (·.erased)) (ht : t.erased = t'.erased) :
    endsAt depth head next t = endsAt depth head' next' t' := by
  have hcut : t.cutsAt ";" depth = t'.cutsAt ";" depth :=
    @eq_of_erased _ (cutsAt ";" depth) (fun _ => rfl) _ _ ht
  have hclose : t.isSymbol "\x7d" = t'.isSymbol "\x7d" :=
    @eq_of_erased _ (isSymbol "\x7d") (fun _ => rfl) _ _ ht
  have hdepth : t.depthAfter depth = t'.depthAfter depth :=
    @eq_of_erased _ (depthAfter depth) (fun _ => rfl) _ _ ht
  unfold endsAt
  rw [any_isKeywordIn_congr hhead, any_isKeywordIn_congr hnext, hcut, hclose, hdepth]

theorem headAfter_congr {head' : Option Placed} {t t' : Placed}
    (hhead : head.map (·.erased) = head'.map (·.erased)) (ht : t.erased = t'.erased) :
    (headAfter head t).map (·.erased) = (headAfter head' t').map (·.erased) := by
  have hdoc : t.isDoc = t'.isDoc := @eq_of_erased _ isDoc (fun _ => rfl) _ _ ht
  have hnone : head.isNone = head'.isNone := by
    rw [← Option.isNone_map (f := (·.erased)), hhead, Option.isNone_map]
  unfold headAfter
  rw [hnone, hdoc]
  split
  · exact congrArg some ht
  · exact hhead

theorem map_outline_push {t t' : Placed} {pieces pieces' : List Run} (ht : t.erased = t'.erased)
    (h : pieces.map outline = pieces'.map outline) :
    (push t pieces).map outline = (push t' pieces').map outline := by
  have houtline (t : Placed) (ts : Run) : outline (t :: ts) = t.erased :: outline ts := rfl
  cases pieces with
  | nil =>
    obtain rfl := List.map_eq_nil_iff.1 h.symm
    simp only [push, List.map_cons, List.map_nil, houtline, ht]
  | cons p pieces =>
    obtain ⟨p', pieces', rfl, hp, hpieces⟩ := List.map_eq_cons_iff.1 h.symm
    simp only [push, List.map_cons, houtline, ht, hp, hpieces]

/-- Which statements a block has depends on its outline alone. -/
theorem map_outline_splitFrom {head' : Option Placed} {us : Run}
    (hhead : head.map (·.erased) = head'.map (·.erased)) (h : outline ts = outline us) :
    (splitFrom depth head ts).map outline = (splitFrom depth head' us).map outline := by
  induction ts generalizing depth head head' us with
  | nil =>
    obtain rfl : us = [] := by
      cases us with
      | nil => rfl
      | cons u us => cases h
    rfl
  | cons t ts ih =>
    cases us with
    | nil => cases h
    | cons u us =>
      obtain ⟨ht, hts⟩ := List.cons.inj h
      have hnext : ts.head?.map (·.erased) = us.head?.map (·.erased) := by
        rw [← List.head?_map, ← List.head?_map]
        exact congrArg List.head? hts
      have hends := @endsAt_congr depth head _ _ _ _ _ hhead hnext ht
      cases hend : endsAt depth head' us.head? u with
      | true =>
        rw [splitFrom_of_endsAt (hends.trans hend), splitFrom_of_endsAt hend, List.map_cons,
          List.map_cons, ih rfl hts]
        exact congrArg (· :: _) (congrArg (fun t => [t]) ht)
      | false =>
        rw [splitFrom_of_not_endsAt (hends.trans hend), splitFrom_of_not_endsAt hend]
        refine map_outline_push ht ?_
        have hdepth : t.depthAfter depth = u.depthAfter depth :=
          @eq_of_erased _ (depthAfter depth) (fun _ => rfl) _ _ ht
        rw [hdepth]
        exact ih (headAfter_congr hhead ht) hts

theorem map_outline_split {us : Run} (h : outline ts = outline us) :
    (split ts).map outline = (split us).map outline := by
  obtain ⟨done, rest, hts⟩ := exists_cut 0 none ts
  obtain ⟨done', rest', hus⟩ := exists_cut 0 none us
  have hpieces := @map_outline_splitFrom 0 none ts none us rfl h
  rw [hts.pieces, hus.pieces, List.map_append, List.map_append] at hpieces
  obtain ⟨hdone, hrest⟩ := List.append_inj' hpieces rfl
  have hdocs (ts : Run) : ts.all (·.isDoc) = (outline ts).all (·.isDoc) := by
    unfold outline
    rw [List.all_map]
    congr 1
    funext t
    exact (@apply_erased _ isDoc (fun _ => rfl) t.toToken).symm
  have hrest : outline rest = outline rest' := (List.cons.inj hrest).1
  rw [hts.split_eq, hus.split_eq, hdocs, hdocs rest', hrest]
  split
  · exact hdone
  · rw [List.map_append, List.map_append, hdone, List.map_singleton, List.map_singleton, hrest]

/-! ## Documentation comments left out -/

/-- Whether one statement ends with a brace and another begins as its continuation. -/
def continues (p q : List Token) : Bool :=
  p.getLast?.any (·.isSymbol "\x7d") && q.head?.any (·.isKeywordIn continuationKeywords)

theorem continues_of_cons {t : Token} {p q : List Token} (h : continues (t :: p) q = false) :
    continues p q = false := by
  cases p with
  | nil => rfl
  | cons u p => exact h

theorem endsAt_iff {next : Option Placed} {t : Placed} :
    endsAt depth head next t = true ↔ t.cutsAt ";" depth = true ∨
      (t.isSymbol "\x7d" = true ∧ t.depthAfter depth = 0 ∧
        head.any (·.isKeywordIn blockKeywords) = true) ∧
      next.any (·.isKeywordIn continuationKeywords) = false := by
  unfold endsAt
  simp [and_assoc]

theorem not_cutsAt_of_isSymbol {t : Placed} (h : t.isSymbol "\x7d" = true) :
    t.cutsAt ";" depth = false := by
  have hclose : t.isClose = true := by
    simp only [isSymbol, Bool.and_eq_true, beq_iff_eq] at h
    simp [isClose, h.1, h.2]
  simp [cutsAt, hclose]

/-- The first piece begins as the run does, and is only empty when it is the last one. -/
theorem exists_first (depth : Nat) (head : Option Placed) (ts : Run) :
    ∃ p ps, splitFrom depth head ts = p :: ps ∧ p.head? = ts.head? ∧
      p.code.head? = ts.code.head? ∧ (ps ≠ [] → p ≠ []) := by
  obtain ⟨done, rest, h⟩ := exists_cut depth head ts
  cases done with
  | nil => exact ⟨rest, [], h.pieces, by rw [← h.flatten]; rfl, by rw [← h.flatten]; rfl, by simp⟩
  | cons p done =>
    obtain ⟨a, t, rfl, ht⟩ := h.ended p (by simp)
    refine ⟨a ++ [t], done ++ [rest], h.pieces, ?_, ?_, by simp⟩
    · rw [← h.flatten, List.flatten_cons, List.append_assoc (a ++ [t]),
        List.head?_append_of_ne_nil (a ++ [t]) (by simp)]
    · have hcode : Run.code (a ++ [t]) ≠ [] := by
        rw [code_append, code_cons ht]
        simp
      rw [← h.flatten, List.flatten_cons, List.append_assoc, code_append (a ++ [t]),
        List.head?_append_of_ne_nil _ hcode]

/-- No statement goes on with the next one. -/
theorem isChain_splitFrom (depth : Nat) (head : Option Placed) (ts : Run) :
    (splitFrom depth head ts).IsChain fun p q => continues p.tokens q.tokens = false := by
  induction ts generalizing depth head with
  | nil => exact List.isChain_singleton _
  | cons t ts ih =>
    cases hend : endsAt depth head ts.head? t with
    | true =>
      obtain ⟨q, qs, hpieces, hhead, -, -⟩ := exists_first 0 none ts
      have hrest := ih 0 none
      rw [splitFrom_of_endsAt hend]
      rw [hpieces] at hrest ⊢
      refine List.isChain_cons_cons.2 ⟨?_, hrest⟩
      rw [← Bool.not_eq_true, continues, Bool.and_eq_true]
      intro hboth
      obtain ⟨hclose, hnext⟩ := hboth
      have hclose : t.isSymbol "\x7d" = true := hclose
      have hnext : ts.head?.any (·.isKeywordIn continuationKeywords) = true := by
        rw [tokens, List.head?_map, Option.any_map, hhead] at hnext
        exact hnext
      rcases endsAt_iff.1 hend with hcut | ⟨-, hno⟩
      · rw [not_cutsAt_of_isSymbol hclose] at hcut
        cases hcut
      · rw [hnext] at hno
        cases hno
    | false =>
      obtain ⟨p, ps, hpieces, -, -, hne⟩ := exists_first (t.depthAfter depth) (headAfter head t) ts
      have hrest := ih (t.depthAfter depth) (headAfter head t)
      rw [splitFrom_of_not_endsAt hend]
      rw [hpieces] at hrest ⊢
      cases ps with
      | nil => exact List.isChain_singleton _
      | cons q qs =>
        obtain ⟨hpq, hqs⟩ := List.isChain_cons_cons.1 hrest
        refine List.isChain_cons_cons.2 ⟨?_, hqs⟩
        obtain ⟨u, p, rfl⟩ := List.exists_cons_of_ne_nil (hne (by simp))
        exact hpq

theorem depthAfter_of_isDoc {t : Placed} (h : t.isDoc = true) : t.depthAfter depth = depth := by
  have hkind : t.kind = .doc := eq_of_beq h
  simp [depthAfter, isOpen, isClose, hkind]

theorem headAfter_of_isDoc {t : Placed} (h : t.isDoc = true) : headAfter head t = head := by
  simp [headAfter, h]

/-- A keyword is no documentation comment, so it comes first also when those are left out. -/
theorem any_head?_code {words : List String} (h : ts.head?.any (·.isKeywordIn words) = true) :
    ts.code.head?.any (·.isKeywordIn words) = true := by
  cases ts with
  | nil => cases h
  | cons t ts =>
    have ht : t.isKeywordIn words = true := h
    have hdoc : t.isDoc = false := by
      simp only [isKeywordIn, Bool.and_eq_true, beq_iff_eq] at ht
      simp [isDoc, ht.1]
    rw [code_cons hdoc]
    exact ht

theorem isChain_of_push {t : Placed} {pieces : List Run}
    (h : (push t pieces).IsChain fun p q => continues p.code.tokens q.code.tokens = false) :
    pieces.IsChain fun p q => continues p.code.tokens q.code.tokens = false := by
  match pieces, h with
  | [], _ => exact List.isChain_nil
  | [p], _ => exact List.isChain_singleton _
  | p :: q :: pieces, h =>
    obtain ⟨hpq, hrest⟩ := List.isChain_cons_cons.1 h
    refine List.isChain_cons_cons.2 ⟨?_, hrest⟩
    cases hdoc : t.isDoc with
    | true => rwa [code_cons_of_isDoc hdoc] at hpq
    | false =>
      rw [code_cons hdoc] at hpq
      exact continues_of_cons hpq

theorem map_code_push {t : Placed} (ht : t.isDoc = false) {pieces : List Run} :
    (push t pieces).map code = push t (pieces.map code) := by
  cases pieces with
  | nil => simp [push, code_cons ht]; rfl
  | cons p pieces => simp [push, code_cons ht]

/-- Without documentation comments the pieces are the same, unless one of them goes on with the
next. -/
theorem splitFrom_code (h : (splitFrom depth head ts).IsChain fun p q =>
      continues p.code.tokens q.code.tokens = false) :
    splitFrom depth head ts.code = (splitFrom depth head ts).map code := by
  induction ts generalizing depth head with
  | nil => rfl
  | cons t ts ih =>
    cases hdoc : t.isDoc with
    | true =>
      have hend : endsAt depth head ts.head? t = false := by
        rw [← Bool.not_eq_true]
        intro hend
        rw [isDoc_of_endsAt hend] at hdoc
        cases hdoc
      rw [splitFrom_of_not_endsAt hend, depthAfter_of_isDoc hdoc, headAfter_of_isDoc hdoc] at h ⊢
      obtain ⟨p, ps, hpieces, -⟩ := exists_first depth head ts
      rw [code_cons_of_isDoc hdoc, ih (isChain_of_push h), hpieces]
      simp [push, code_cons_of_isDoc hdoc]
    | false =>
      rw [code_cons hdoc]
      cases hend : endsAt depth head ts.head? t with
      | true =>
        rw [splitFrom_of_endsAt hend] at h ⊢
        obtain ⟨q, qs, hpieces, -, hhead, -⟩ := exists_first 0 none ts
        obtain ⟨hnext, hrest⟩ := List.isChain_cons.1 h
        have hcode : endsAt depth head (code ts).head? t = true := by
          rcases endsAt_iff.1 hend with hcut | ⟨hblock, -⟩
          · exact endsAt_iff.2 (.inl hcut)
          · refine endsAt_iff.2 (.inr ⟨hblock, ?_⟩)
            have hq := hnext q (by rw [hpieces]; rfl)
            rw [code_cons hdoc, ← Bool.not_eq_true, continues, Bool.and_eq_true, tokens, tokens,
              List.head?_map, Option.any_map, hhead] at hq
            rw [← Bool.not_eq_true]
            exact fun hkeyword => hq ⟨hblock.1, hkeyword⟩
        rw [splitFrom_of_endsAt hcode, ih hrest, List.map_cons, code_cons hdoc]
        rfl
      | false =>
        rw [splitFrom_of_not_endsAt hend] at h ⊢
        have hcode : endsAt depth head (code ts).head? t = false := by
          rw [← Bool.not_eq_true] at hend ⊢
          intro hcode
          rcases endsAt_iff.1 hcode with hcut | ⟨hblock, hnext⟩
          · exact hend (endsAt_iff.2 (.inl hcut))
          · refine hend (endsAt_iff.2 (.inr ⟨hblock, ?_⟩))
            rw [← Bool.not_eq_true] at hnext ⊢
            exact fun hkeyword => hnext (any_head?_code hkeyword)
        rw [splitFrom_of_not_endsAt hcode, ih (isChain_of_push h), map_code_push hdoc]

theorem continues_nil (p : List Token) : continues p [] = false := by
  simp [continues]

theorem code_code (ts : Run) : ts.code.code = ts.code := by
  simp [Run.code]

theorem all_isDoc_iff {ts : Run} : ts.all (·.isDoc) = true ↔ ts.code = [] := by
  simp [Run.code, List.filter_eq_nil_iff]

theorem code_of_split_code {p : Run} (hp : p ∈ split ts.code) : p.code = p := by
  refine List.filter_eq_self.2 fun t ht => ?_
  exact (List.mem_filter.1 ((neighbours_of_mem_split hp).1.subset ht)).2

/-- Without documentation comments a block has the same statements if none of them goes on with the
next. -/
theorem split_code (h : ((split ts).map (·.code.tokens)).IsChain fun p q => continues p q = false) :
    split ts.code = (split ts).map code := by
  rw [List.isChain_map] at h
  obtain ⟨done, rest, hcut⟩ := exists_cut 0 none ts
  have hchain : (splitFrom 0 none ts).IsChain fun p q =>
      continues p.code.tokens q.code.tokens = false := by
    rw [hcut.split_eq] at h
    rw [hcut.pieces]
    split at h
    · rename_i hrest
      refine List.isChain_append.2 ⟨h, List.isChain_singleton _, fun p _ q hq => ?_⟩
      obtain rfl := Option.some.inj hq
      rw [all_isDoc_iff.1 hrest]
      exact continues_nil _
    · exact h
  have hcode := splitFrom_code hchain
  rw [hcut.pieces, List.map_append, List.map_singleton] at hcode
  have hrest : rest.code.all (·.isDoc) = rest.all (·.isDoc) := by
    rw [Bool.eq_iff_iff, all_isDoc_iff, all_isDoc_iff, code_code]
  rw [split_of_splitFrom hcode, hcut.split_eq, hrest]
  split
  · rfl
  · rw [List.map_append, List.map_singleton]

/-- Without documentation comments a block has the same statements exactly when none of them goes on
with the next. -/
theorem split_code_iff (ts : Run) :
    (split ts.code).map tokens = (split ts).map (·.code.tokens) ↔
      ((split ts).map (·.code.tokens)).IsChain fun p q => continues p q = false := by
  constructor
  · intro h
    rw [← h, List.isChain_map]
    obtain ⟨done, rest, hcut⟩ := exists_cut 0 none ts.code
    have hchain := isChain_splitFrom 0 none ts.code
    rw [hcut.pieces] at hchain
    rw [hcut.split_eq]
    split
    · exact hchain.left_of_append
    · exact hchain
  · intro h
    rw [split_code h, List.map_map]
    rfl

/-! ## Inside a statement -/

/-- Balanced tokens without a semicolon outside brackets belong to one statement, unless that ends
with a brace. -/
theorem splitFrom_of_uncut {a : Run} {k : Nat} {t : Placed}
    (ht : t.isKeywordIn blockKeywords = false) (h : balanced k a.tokens = true)
    (huncut : uncut ";" k a.tokens = true) (rest : Run) :
    splitFrom k (some t) (a ++ rest) = a.foldr push (splitFrom 0 (some t) rest) := by
  induction a generalizing k with
  | nil =>
    obtain rfl : k = 0 := eq_of_beq h
    rfl
  | cons u a ih =>
    obtain ⟨hcut, hrest⟩ := uncut_cons huncut
    have hend : endsAt k (some t) (List.head? (a ++ rest)) u = false := by
      rw [← Bool.not_eq_true, endsAt_iff]
      rintro (hcut' | ⟨⟨-, -, hblock⟩, -⟩)
      · rw [hcut] at hcut'
        cases hcut'
      · rw [Option.any_some, ht] at hblock
        cases hblock
    rw [List.cons_append, splitFrom_of_not_endsAt hend]
    exact congrArg (push u) (ih (balanced_cons h).2 hrest)

end CurryGen.Statement

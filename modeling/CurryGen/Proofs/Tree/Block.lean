import CurryGen.Proofs.Tree.Split

/-!
# What the statements of a block are made of

The statements of a block have its tokens, in order and each in one statement, and a semicolon
outside brackets ends its statement. Documentation comments are in no statement, and they matter in
one place only: between the brace that ends a statement and a keyword that would have continued it.

* `uncut_splitFrom`, `isEnd_of_mem_splitFrom`: where a piece may end, by induction on the block.
* `readStatements_partition`: the statements of a block partition its tokens.
* `readStatements_code_iff`: when a block without its documentation comments is read as before.
-/

namespace CurryGen

open Run Token

namespace Statement

variable {depth : Nat} {head : Option Placed} {ts : Run}

/-! ## Where a statement ends -/

/-- A token that may end a statement before the end of its block. -/
def isEnd (t : Token) : Bool := t.isSymbol ";" || t.isSymbol "\x7d"

theorem isEnd_of_endsAt {next : Option Placed} {t : Placed} (h : endsAt depth head next t = true) :
    isEnd t.toToken = true := by
  unfold isEnd
  rw [Bool.or_eq_true]
  rcases endsAt_iff.1 h with hcut | ⟨⟨hclose, -⟩, -⟩
  · rw [cutsAt, Bool.and_eq_true] at hcut
    exact .inl hcut.2
  · exact .inr hclose

theorem uncut_dropLast_cons {t : Token} {a : List Token} (ht : t.cutsAt ";" depth = false)
    (h : uncut ";" (t.depthAfter depth) a.dropLast = true) :
    uncut ";" depth (t :: a).dropLast = true := by
  cases a with
  | nil => rfl
  | cons u a => rw [List.dropLast_cons_cons, uncut, ht, h]; rfl

/-- In a piece only the last token can be a semicolon outside brackets. The brackets of the first
piece are counted from `depth`, those of the others from zero. -/
theorem uncut_splitFrom {p : Run} {ps : List Run} (h : splitFrom depth head ts = p :: ps) :
    uncut ";" depth p.code.tokens.dropLast = true ∧
      ∀ q ∈ ps, uncut ";" 0 q.code.tokens.dropLast = true := by
  induction ts generalizing depth head p ps with
  | nil =>
    cases h
    exact ⟨rfl, List.forall_mem_nil _⟩
  | cons t ts ih =>
    cases hend : endsAt depth head ts.head? t with
    | true =>
      rw [splitFrom_of_endsAt hend] at h
      obtain ⟨rfl, rfl⟩ := List.cons.inj h
      obtain ⟨q, qs, hpieces, -⟩ := exists_first 0 none ts
      rw [hpieces]
      refine ⟨?_, List.forall_mem_cons.2 (ih hpieces)⟩
      rw [code_cons (isDoc_of_endsAt hend)]
      rfl
    | false =>
      rw [splitFrom_of_not_endsAt hend] at h
      obtain ⟨q, qs, hpieces, -⟩ := exists_first (t.depthAfter depth) (headAfter head t) ts
      rw [hpieces] at h
      obtain ⟨rfl, rfl⟩ := List.cons.inj h
      obtain ⟨hq, hqs⟩ := ih hpieces
      refine ⟨?_, hqs⟩
      cases hdoc : t.isDoc with
      | true =>
        rw [depthAfter_of_isDoc hdoc] at hq
        rwa [code_cons_of_isDoc hdoc]
      | false =>
        have hcut : t.cutsAt ";" depth = false := by
          rw [← Bool.not_eq_true] at hend ⊢
          exact fun hcut => hend (endsAt_iff.2 (.inl hcut))
        rw [code_cons hdoc, tokens_cons]
        exact uncut_dropLast_cons hcut hq

/-- A piece that another one follows has ended with a semicolon or a brace. -/
theorem isEnd_of_mem_splitFrom {p : Run} (hp : p ∈ (splitFrom depth head ts).dropLast) :
    p.code.tokens.getLast?.any isEnd = true := by
  induction ts generalizing depth head p with
  | nil => cases hp
  | cons t ts ih =>
    cases hend : endsAt depth head ts.head? t with
    | true =>
      obtain ⟨q, qs, hpieces, -⟩ := exists_first 0 none ts
      rw [splitFrom_of_endsAt hend, hpieces, List.dropLast_cons_cons, ← hpieces] at hp
      rcases List.mem_cons.1 hp with rfl | hp
      · rw [code_cons (isDoc_of_endsAt hend)]
        exact isEnd_of_endsAt hend
      · exact ih hp
    | false =>
      obtain ⟨q, qs, hpieces, -⟩ := exists_first (t.depthAfter depth) (headAfter head t) ts
      have ih {p : Run} := @ih (t.depthAfter depth) (headAfter head t) p
      rw [splitFrom_of_not_endsAt hend, hpieces] at hp
      rw [hpieces] at ih
      cases qs with
      | nil => cases hp
      | cons r rs =>
        rw [push, List.dropLast_cons_cons] at hp
        rw [List.dropLast_cons_cons] at ih
        rcases List.mem_cons.1 hp with rfl | hp
        · have hlast := ih List.mem_cons_self
          cases hdoc : t.isDoc with
          | true => rwa [code_cons_of_isDoc hdoc]
          | false =>
            obtain ⟨u, hu, hisEnd⟩ := (Option.any_eq_true _ _).1 hlast
            rw [code_cons hdoc, tokens_cons, List.getLast?_cons, hu]
            exact hisEnd
        · exact ih (List.mem_cons_of_mem _ hp)

/-- A statement has a token of its own: documentation comments alone are none. -/
theorem code_ne_nil_of_mem_split {p : Run} (hp : p ∈ split ts) : p.code ≠ [] := by
  obtain ⟨done, rest, h⟩ := exists_cut 0 none ts
  have hdone : ∀ q ∈ done, q.code ≠ [] := by
    intro q hq
    obtain ⟨a, t, rfl, ht⟩ := h.ended q hq
    rw [code_append, code_cons ht]
    simp
  rw [h.split_eq] at hp
  split at hp
  · exact hdone p hp
  · rename_i hrest
    rcases List.mem_append.1 hp with hp | hp
    · exact hdone p hp
    · obtain rfl := List.mem_singleton.1 hp
      exact fun hcode => hrest (all_isDoc_iff.2 hcode)

theorem uncut_of_mem_split {p : Run} (hp : p ∈ split ts) :
    uncut ";" 0 p.code.tokens.dropLast = true := by
  obtain ⟨done, rest, h⟩ := exists_cut 0 none ts
  obtain ⟨q, qs, hpieces, -⟩ := exists_first 0 none ts
  obtain ⟨hq, hqs⟩ := uncut_splitFrom hpieces
  have hp : p ∈ splitFrom 0 none ts := by
    rw [h.split_eq] at hp
    rw [h.pieces]
    split at hp
    · exact List.mem_append_left _ hp
    · exact hp
  rw [hpieces] at hp
  rcases List.mem_cons.1 hp with rfl | hp
  · exact hq
  · exact hqs p hp

theorem isEnd_of_mem_split {p : Run} (hp : p ∈ (split ts).dropLast) :
    p.code.tokens.getLast?.any isEnd = true := by
  obtain ⟨done, rest, h⟩ := exists_cut 0 none ts
  refine @isEnd_of_mem_splitFrom 0 none ts p ?_
  rw [h.split_eq] at hp
  rw [h.pieces, List.dropLast_concat]
  split at hp
  · exact List.dropLast_subset done hp
  · rwa [List.dropLast_concat] at hp

end Statement

/-- **The statements of a block partition its tokens**, documentation comments left out: each token
is in one statement and no statement is empty. A semicolon outside brackets is the last token of its
statement, and every statement but the last ends with a semicolon or a closing brace. -/
theorem readStatements_partition (source : List Char) (ts : Run) :
    (readStatements source ts).flatMap (·.tokens) = ts.code ∧
      (∀ s ∈ readStatements source ts,
        s.tokens ≠ [] ∧ uncut ";" 0 s.tokens.tokens.dropLast = true) ∧
      ∀ s ∈ (readStatements source ts).dropLast,
        s.tokens.tokens.getLast?.any Statement.isEnd = true := by
  refine ⟨Statement.flatMap_readStatements source ts, fun s hs => ?_, fun s hs => ?_⟩
  · rw [readStatements_eq_map] at hs
    obtain ⟨p, hp, rfl⟩ := List.mem_map.1 hs
    rw [tokens_readStatement]
    exact ⟨Statement.code_ne_nil_of_mem_split hp, Statement.uncut_of_mem_split hp⟩
  · rw [readStatements_eq_map, ← List.map_dropLast] at hs
    obtain ⟨p, hp, rfl⟩ := List.mem_map.1 hs
    rw [tokens_readStatement]
    exact Statement.isEnd_of_mem_split hp

/-- Brackets that close nothing, a semicolon in a block and a statement that does not end. -/
theorem readStatements_partition_unbalanced :
    let ts : Run := [⟨.symbol "\x7d", 0⟩, ⟨.symbol ";", 1⟩, ⟨⟨.name, "If"⟩, 2⟩, ⟨.symbol "\x7b", 4⟩,
      ⟨.symbol ";", 5⟩, ⟨.symbol "\x7d", 6⟩, ⟨⟨.doc, "/** d */"⟩, 7⟩, ⟨⟨.«variable», "$x"⟩, 15⟩]
    (readStatements [] ts).map (·.tokens.tokens.map (·.text)) =
        [["\x7d", ";"], ["If", "\x7b", ";", "\x7d"], ["$x"]] ∧
      ∀ s ∈ readStatements [] ts, uncut ";" 0 s.tokens.tokens.dropLast = true := by
  intro ts
  constructor
  · have htokens := congrArg (·.map (·.map Token.text)) (map_tokens_readStatements [] ts)
    rw [List.map_map] at htokens
    refine htokens.trans ?_
    decide +kernel
  · exact fun s hs => ((readStatements_partition [] ts).2.1 s hs).2

/-! ## Documentation comments left out -/

theorem form_readStatement_code (source : List Char) (ts : Run) :
    (readStatement source ts.code).form = (readStatement source ts).form := by
  rw [form_readStatement, form_readStatement, Statement.code_code]

theorem tokens_readStatement_code (source : List Char) (ts : Run) :
    (readStatement source ts.code).tokens = (readStatement source ts).tokens := by
  rw [tokens_readStatement, tokens_readStatement, Statement.code_code]

/-- **Without its documentation comments a block is read as before**, with the same tokens and forms
of its statements, exactly when no statement ends with a brace before one that begins with `else`,
`elseif`, `catch` or `finally`. Two such statements become one when no comment stands between them
any more. -/
theorem readStatements_code_iff (source : List Char) (ts : Run) :
    (readStatements source ts.code).map (fun s => (s.tokens, s.form)) =
        (readStatements source ts).map (fun s => (s.tokens, s.form)) ↔
      ((readStatements source ts).map (·.tokens.tokens)).IsChain fun p q =>
        Statement.continues p q = false := by
  rw [map_tokens_readStatements]
  constructor
  · intro h
    have htokens := congrArg (·.map fun s => Run.tokens s.1) h
    simp only [List.map_map, Function.comp_def] at htokens
    rw [map_tokens_readStatements, map_tokens_readStatements] at htokens
    rw [← Statement.split_code_iff, ← htokens]
    exact List.map_congr_left fun p hp => (congrArg tokens (Statement.code_of_split_code hp)).symm
  · intro h
    rw [readStatements_eq_map, readStatements_eq_map, Statement.split_code h]
    simp only [List.map_map]
    refine List.map_congr_left fun p _ => ?_
    exact Prod.ext (tokens_readStatement_code source p) (form_readStatement_code source p)

end CurryGen

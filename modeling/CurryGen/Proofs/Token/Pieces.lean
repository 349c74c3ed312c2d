import CurryGen.Proofs.Token.Reading
import CurryGen.Proofs.Token.Separator

/-!
# The pieces between separators

`Run.splitTopLevel` cuts a run at the separators outside its brackets, at all of them and at no
other token, whether the brackets are balanced or not.

* `Token.depthFrom`: how deep in brackets tokens end. A closing bracket that closes nothing does not
  count.
* `Joined`: pieces with one separator between each and the next.
* `exists_first_cut`: where a run is cut first; the rest is cut as a run of its own
  (`splitTopLevel_append`).
* `isSplit_cons_iff`: the same of `IsSplit`, which is what is expected of the pieces.
* `splitTopLevel_eq_iff`: the pieces are the only runs of which that holds.
-/

namespace CurryGen

namespace Token

variable {separator : String} {k : Nat} {ts : List Token}

/-- The bracket depth after tokens, counted from `depth` before them and never below zero. -/
def depthFrom (depth : Nat) (ts : List Token) : Nat := ts.foldl depthAfter depth

@[simp] theorem depthFrom_nil (k : Nat) : depthFrom k [] = k := rfl

@[simp] theorem depthFrom_cons (k : Nat) (t : Token) (ts : List Token) :
    depthFrom k (t :: ts) = depthFrom (t.depthAfter k) ts := rfl

theorem depthFrom_append (k : Nat) (a b : List Token) :
    depthFrom k (a ++ b) = depthFrom (depthFrom k a) b :=
  List.foldl_append

/-- A symbol that is no bracket cuts exactly outside brackets. -/
theorem cutsAt_iff (hopen : (symbol separator).isOpen = false)
    (hclose : (symbol separator).isClose = false) {t : Token} :
    t.cutsAt separator k = true ↔ k = 0 ∧ t = symbol separator := by
  constructor
  · intro h
    simp only [cutsAt, Bool.and_eq_true, beq_iff_eq] at h
    exact ⟨h.1.1.1, eq_of_isSymbol h.2⟩
  · rintro ⟨rfl, rfl⟩
    have hsymbol : (symbol separator).isSymbol separator = true := by simp [isSymbol, symbol]
    simp [cutsAt, hopen, hclose, hsymbol]

theorem depthAfter_symbol (hopen : (symbol separator).isOpen = false)
    (hclose : (symbol separator).isClose = false) (k : Nat) :
    (symbol separator).depthAfter k = k := by
  rw [depthAfter, hopen, hclose]
  rfl

/-- Tokens are uncut iff brackets are open before each separator in them. -/
theorem uncut_iff (hopen : (symbol separator).isOpen = false)
    (hclose : (symbol separator).isClose = false) :
    uncut separator k ts = true ↔
      ∀ a b, ts = a ++ symbol separator :: b → depthFrom k a ≠ 0 := by
  induction ts generalizing k with
  | nil => simp [uncut]
  | cons t ts ih =>
    rw [uncut, Bool.and_eq_true, Bool.not_eq_true', ih, ← Bool.not_eq_true,
      cutsAt_iff hopen hclose]
    constructor
    · rintro ⟨hfirst, hrest⟩ a b heq
      cases a with
      | nil => exact fun hk => hfirst ⟨hk, (List.cons.inj heq).1⟩
      | cons u a =>
        obtain ⟨rfl, rfl⟩ := List.cons.inj heq
        exact hrest a b rfl
    · intro h
      refine ⟨?_, fun a b heq => h (t :: a) b (by rw [heq, List.cons_append])⟩
      rintro ⟨rfl, rfl⟩
      exact h [] ts rfl rfl

end Token

namespace Run

open Token

variable {separator : String} {ts p : Run} {pieces : List Run}

/-! ## Where a run is cut -/

/-- Unless a run is not cut at all, it is cut at its first separator outside brackets. -/
theorem exists_first_cut (separator : String) (k : Nat) (ts : Run) :
    uncut separator k ts.tokens = true ∨
      ∃ (a : Run) (s : Placed) (b : Run), ts = a ++ s :: b ∧ depthFrom k a.tokens = 0 ∧
        uncut separator k a.tokens = true ∧ s.cutsAt separator 0 = true := by
  induction ts generalizing k with
  | nil => exact .inl rfl
  | cons t ts ih =>
    cases hcut : t.cutsAt separator k with
    | true =>
      have hk : k = 0 := by
        simp only [cutsAt, Bool.and_eq_true, beq_iff_eq] at hcut
        exact hcut.1.1.1
      subst hk
      exact .inr ⟨[], t, ts, rfl, rfl, rfl, hcut⟩
    | false =>
      rcases ih (t.depthAfter k) with huncut | ⟨a, s, b, rfl, hdepth, huncut, hs⟩
      · refine .inl ?_
        rw [tokens_cons, uncut, hcut, huncut]
        rfl
      · refine .inr ⟨t :: a, s, b, rfl, hdepth, ?_, hs⟩
        rw [tokens_cons, uncut, hcut, huncut]
        rfl

theorem piecesFrom_cut {k : Nat} {a : Run} {s : Placed} (hdepth : depthFrom k a.tokens = 0)
    (huncut : uncut separator k a.tokens = true) (hs : s.cutsAt separator 0 = true) (b : Run) :
    piecesFrom separator k (a ++ s :: b) = a :: piecesFrom separator 0 b := by
  induction a generalizing k with
  | nil =>
    obtain rfl : k = 0 := hdepth
    rw [List.nil_append, piecesFrom, if_pos hs]
  | cons t a ih =>
    obtain ⟨hcut, hrest⟩ := uncut_cons huncut
    rw [List.cons_append, piecesFrom, hcut, ih hdepth hrest]
    rfl

theorem dropEmptyLast_cons (p : Run) (h : pieces ≠ []) :
    dropEmptyLast (p :: pieces) = p :: dropEmptyLast pieces := by
  unfold dropEmptyLast
  rw [List.getLast?_cons_of_ne_nil h, List.dropLast_cons_of_ne_nil h]
  split <;> rfl

/-- After the first cut the rest is split on its own. -/
theorem splitTopLevel_append {a : Run} {s : Placed} (hdepth : depthFrom 0 a.tokens = 0)
    (huncut : uncut separator 0 a.tokens = true) (hs : s.cutsAt separator 0 = true) (b : Run) :
    (a ++ s :: b).splitTopLevel separator = a :: b.splitTopLevel separator := by
  rw [splitTopLevel, piecesFrom_cut hdepth huncut hs, dropEmptyLast_cons a (piecesFrom_ne_nil 0 b)]
  rfl

theorem splitTopLevel_of_uncut (hne : ts ≠ []) (h : uncut separator 0 ts.tokens = true) :
    ts.splitTopLevel separator = [ts] := by
  rw [splitTopLevel, piecesFrom_of_uncut h, dropEmptyLast, if_neg]
  simpa using hne

/-! ## What is expected of the pieces -/

/-- Runs with one separator between each and the next, and the run that they make together. -/
inductive Joined (separator : String) : List Run → Run → Prop
  | nil : Joined separator [] []
  | single (p : Run) : Joined separator [p] p
  | cons (p : Run) {q : Run} {qs : List Run} {s : Placed} {rest : Run} :
      s.toToken = symbol separator → Joined separator (q :: qs) rest →
      Joined separator (p :: q :: qs) (p ++ s :: rest)

theorem joined_cons_iff :
    Joined separator (p :: pieces) ts ↔
      pieces = [] ∧ ts = p ∨
        pieces ≠ [] ∧ ∃ s rest, ts = p ++ s :: rest ∧ s.toToken = symbol separator ∧
          Joined separator pieces rest := by
  constructor
  · intro h
    cases h with
    | single => exact .inl ⟨rfl, rfl⟩
    | cons _ hs hrest => exact .inr ⟨List.cons_ne_nil _ _, _, _, rfl, hs, hrest⟩
  · rintro (⟨rfl, rfl⟩ | ⟨hne, s, rest, rfl, hs, hrest⟩)
    · exact .single ts
    · obtain ⟨q, qs, rfl⟩ := List.exists_cons_of_ne_nil hne
      exact .cons p hs hrest

/-- A run without its last token when that is a separator outside brackets. -/
def withoutTrailing (separator : String) (ts : Run) : Run :=
  if ts.tokens.getLast? = some (symbol separator) ∧ depthFrom 0 ts.tokens.dropLast = 0 then
    ts.dropLast
  else ts

/-- How a run is cut at the separators outside its brackets. -/
structure IsSplit (separator : String) (ts : Run) (pieces : List Run) : Prop where
  /-- Nothing is lost and nothing is added. -/
  joined : Joined separator pieces (ts.withoutTrailing separator)
  /-- Every separator in a piece is inside brackets of the piece. -/
  uncut : ∀ p ∈ pieces, ∀ a b, p.tokens = a ++ symbol separator :: b → depthFrom 0 a ≠ 0
  /-- A piece that another one follows has no bracket left open. -/
  closed : ∀ p ∈ pieces.dropLast, depthFrom 0 p.tokens = 0
  nil : pieces = [] ↔ ts = []

theorem isSplit_nil (separator : String) : IsSplit separator [] [] where
  joined := .nil
  uncut := List.forall_mem_nil _
  closed := List.forall_mem_nil _
  nil := iff_of_true rfl rfl

theorem withoutTrailing_concat (separator : String) (ts : Run) (s : Placed) :
    (ts ++ [s]).withoutTrailing separator =
      if s.toToken = symbol separator ∧ depthFrom 0 ts.tokens = 0 then ts else ts ++ [s] := by
  have htokens : tokens (ts ++ [s]) = ts.tokens ++ [s.toToken] := tokens_append ts [s]
  rw [withoutTrailing, htokens, List.getLast?_concat, List.dropLast_concat, List.dropLast_concat]
  simp only [Option.some_inj]

/-- A run is as it is without its trailing separator, unless it has one. -/
theorem withoutTrailing_cases (separator : String) (ts : Run) :
    ts.withoutTrailing separator = ts ∨
      ∃ s, ts = ts.withoutTrailing separator ++ [s] ∧ s.toToken = symbol separator ∧
        depthFrom 0 (ts.withoutTrailing separator).tokens = 0 := by
  rcases List.eq_nil_or_concat ts with rfl | ⟨front, s, rfl⟩
  · exact .inl rfl
  · rw [List.concat_eq_append, withoutTrailing_concat]
    split
    · rename_i h
      exact .inr ⟨s, rfl, h.1, h.2⟩
    · exact .inl rfl

theorem withoutTrailing_of_uncut (hopen : (symbol separator).isOpen = false)
    (hclose : (symbol separator).isClose = false) (h : uncut separator 0 ts.tokens = true) :
    ts.withoutTrailing separator = ts := by
  rcases withoutTrailing_cases separator ts with heq | ⟨s, heq, hs, hdepth⟩
  · exact heq
  · refine absurd hdepth ((uncut_iff hopen hclose).1 h _ [] ?_)
    rw [← hs]
    exact (congrArg tokens heq).trans (tokens_append _ _)

section

variable (hopen : (symbol separator).isOpen = false) (hclose : (symbol separator).isClose = false)
include hopen hclose

/-- A trailing separator is one of what follows a cut. -/
theorem withoutTrailing_append {a b : Run} {s : Placed} (hdepth : depthFrom 0 a.tokens = 0)
    (hs : s.toToken = symbol separator) (hb : b ≠ []) :
    (a ++ s :: b).withoutTrailing separator = a ++ s :: b.withoutTrailing separator := by
  obtain ⟨front, u, rfl⟩ : ∃ (front : Run) (u : Placed), b = front ++ [u] :=
    ⟨b.dropLast, b.getLast hb, (List.dropLast_concat_getLast hb).symm⟩
  have hcount : depthFrom 0 (a ++ s :: front).tokens = depthFrom 0 front.tokens := by
    rw [tokens_append, tokens_cons, depthFrom_append, hdepth, hs, depthFrom_cons,
      depthAfter_symbol hopen hclose]
  have hassoc : a ++ s :: (front ++ [u]) = (a ++ s :: front) ++ [u] := by simp
  rw [hassoc, withoutTrailing_concat, withoutTrailing_concat, hcount]
  split
  · rfl
  · exact hassoc.symm

/-- Before a cut stands a piece, and after it the other pieces. -/
theorem isSplit_cons_iff {a b : Run} {s : Placed} (hdepth : depthFrom 0 a.tokens = 0)
    (huncut : uncut separator 0 a.tokens = true) (hs : s.toToken = symbol separator) :
    IsSplit separator (a ++ s :: b) (a :: pieces) ↔ IsSplit separator b pieces := by
  rcases eq_or_ne b [] with rfl | hb
  · have hfront : (a ++ [s]).withoutTrailing separator = a := by
      rw [withoutTrailing_concat, if_pos ⟨hs, hdepth⟩]
    constructor
    · intro h
      have hjoined := h.joined
      rw [hfront, joined_cons_iff] at hjoined
      rcases hjoined with ⟨rfl, -⟩ | ⟨-, s', rest, hwhole, -⟩
      · exact isSplit_nil separator
      · simp at hwhole
    · intro h
      obtain rfl : pieces = [] := h.nil.2 rfl
      refine ⟨?_, ?_, by simp, by simp⟩
      · rw [hfront]
        exact .single a
      · rw [List.forall_mem_singleton]
        exact (uncut_iff hopen hclose).1 huncut
  · have hfront := withoutTrailing_append hopen hclose hdepth hs hb
    constructor
    · intro h
      have hjoined := h.joined
      rw [hfront, joined_cons_iff] at hjoined
      rcases hjoined with ⟨-, hwhole⟩ | ⟨hne, s', rest, hwhole, -, hrest⟩
      · simp at hwhole
      · obtain rfl := (List.cons.inj (List.append_cancel_left hwhole)).2
        refine ⟨hrest, (List.forall_mem_cons.1 h.uncut).2, fun q hq => h.closed q ?_, ?_⟩
        · rw [List.dropLast_cons_of_ne_nil hne]
          exact List.mem_cons_of_mem a hq
        · exact iff_of_false hne hb
    · intro h
      have hne : pieces ≠ [] := mt h.nil.1 hb
      refine ⟨?_, ?_, ?_, by simp⟩
      · rw [hfront]
        exact joined_cons_iff.2 (.inr ⟨hne, s, _, rfl, hs, h.joined⟩)
      · exact List.forall_mem_cons.2 ⟨(uncut_iff hopen hclose).1 huncut, h.uncut⟩
      · rw [List.dropLast_cons_of_ne_nil hne]
        exact List.forall_mem_cons.2 ⟨hdepth, h.closed⟩

omit hopen hclose in
/-- The first piece is the whole run or stands before a cut. -/
theorem IsSplit.first (h : IsSplit separator ts (p :: pieces)) :
    pieces = [] ∧ ts = p ∨
      ∃ s rest, ts = p ++ s :: rest ∧ s.toToken = symbol separator ∧
        depthFrom 0 p.tokens = 0 := by
  rcases joined_cons_iff.1 h.joined with ⟨rfl, hwhole⟩ | ⟨hne, s, rest, hwhole, hs, -⟩
  · rcases withoutTrailing_cases separator ts with heq | ⟨s, heq, hs, hdepth⟩
    · exact .inl ⟨rfl, heq.symm.trans hwhole⟩
    · rw [hwhole] at heq hdepth
      exact .inr ⟨s, [], heq, hs, hdepth⟩
  · have hdepth : depthFrom 0 p.tokens = 0 :=
      h.closed p (by rw [List.dropLast_cons_of_ne_nil hne]; exact List.mem_cons_self)
    rcases withoutTrailing_cases separator ts with heq | ⟨s', heq, -, -⟩
    · exact .inr ⟨s, rest, heq.symm.trans hwhole, hs, hdepth⟩
    · rw [hwhole, List.append_assoc] at heq
      exact .inr ⟨s, rest ++ [s'], heq, hs, hdepth⟩

/-- **A run is cut at the separators outside brackets.** The pieces with a separator between each
and the next are the run, less a separator at its end. None has a separator outside its own
brackets, each but the last closes its brackets, and only the empty run has no pieces. No other runs
are like that. -/
theorem splitTopLevel_eq_iff (ts : Run) (pieces : List Run) :
    ts.splitTopLevel separator = pieces ↔ IsSplit separator ts pieces := by
  constructor
  · rintro rfl
    induction hn : ts.length using Nat.strong_induction_on generalizing ts with
    | _ n ih =>
      rcases exists_first_cut separator 0 ts with huncut | ⟨a, s, b, rfl, hdepth, huncut, hs⟩
      · rcases eq_or_ne ts [] with rfl | hne
        · exact isSplit_nil separator
        · rw [splitTopLevel_of_uncut hne huncut]
          refine ⟨?_, ?_, by simp, by simp [hne]⟩
          · rw [withoutTrailing_of_uncut hopen hclose huncut]
            exact .single ts
          · rw [List.forall_mem_singleton]
            exact (uncut_iff hopen hclose).1 huncut
      · have hlength : b.length < n := by
          rw [← hn, List.length_append, List.length_cons]
          omega
        rw [splitTopLevel_append hdepth huncut hs]
        exact (isSplit_cons_iff hopen hclose hdepth huncut ((cutsAt_iff hopen hclose).1 hs).2).2
          (ih b.length hlength b rfl)
  · intro h
    induction pieces generalizing ts with
    | nil =>
      obtain rfl := h.nil.1 rfl
      rfl
    | cons p pieces ih =>
      have huncut : Token.uncut separator 0 p.tokens = true :=
        (uncut_iff hopen hclose).2 (h.uncut p List.mem_cons_self)
      rcases h.first with ⟨rfl, rfl⟩ | ⟨s, rest, rfl, hs, hdepth⟩
      · exact splitTopLevel_of_uncut (mt h.nil.2 (List.cons_ne_nil _ _)) huncut
      · have hcut : s.cutsAt separator 0 = true := (cutsAt_iff hopen hclose).2 ⟨rfl, hs⟩
        rw [splitTopLevel_append hdepth huncut hcut,
          ih rest ((isSplit_cons_iff hopen hclose hdepth huncut hs).1 h)]

end

/-- A bracket that closes nothing, separators inside brackets, an empty piece and a separator at the
end. -/
theorem splitTopLevel_eq_iff_stray :
    let a : Run := [⟨.symbol "]", 0⟩]
    let b : Run := [⟨⟨.name, "f"⟩, 2⟩, ⟨.symbol "(", 3⟩, ⟨⟨.int, "1"⟩, 4⟩, ⟨.symbol ",", 5⟩,
      ⟨⟨.int, "2"⟩, 6⟩, ⟨.symbol ")", 7⟩]
    let c : Run := [⟨.symbol "\x7b", 10⟩, ⟨.symbol ",", 11⟩, ⟨.symbol "\x7d", 12⟩]
    (symbol ",").isOpen = false ∧ (symbol ",").isClose = false ∧
      IsSplit "," (a ++ ⟨.symbol ",", 1⟩ :: b ++ ⟨.symbol ",", 8⟩ :: ⟨.symbol ",", 9⟩ :: c ++
        [⟨.symbol ",", 13⟩]) [a, b, [], c] := by
  intro a b c
  have hopen : (symbol ",").isOpen = false := by decide
  have hclose : (symbol ",").isClose = false := by decide
  exact ⟨hopen, hclose, (splitTopLevel_eq_iff hopen hclose _ _).1 (by decide +kernel)⟩

end Run

end CurryGen

import CurryGen.Proofs.Tree.Block
import CurryGen.Proofs.Tree.RenderedExpr

/-!
# Rendered statements

Statements are rendered like expressions, with a semicolon that the printer adds where the last
statement of a block has none. A block is the statements that it is split into, and all of these but
the last one are complete.

* `Statement.IsComplete`, `Statement.split_of_code`: where the statements of a block end.
* `Statement.exists_of_classify_ret`: the code of a `return` statement.
* `Print.Renders.statement`, `Print.Renders.statements`: one statement, and those of a block.
-/

namespace CurryGen

open Scan Token

/-- None of the functions is named by a keyword that is printed. -/
def Qualifier.SparesKeywords (q : Qualifier) : Prop :=
  ∀ word ∈ ["function", "fn", "use", "return"], word ∉ q.functions

instance (q : Qualifier) : Decidable q.SparesKeywords := inferInstanceAs (Decidable (∀ _ ∈ _, _))

namespace Statement

variable {depth : Nat} {head : Option Placed} {ts : Run}

/-- A statement with its end: a semicolon, or the brace of a block. `head` is the first token of the
statement if that is not in the run. -/
def IsComplete (head : Option Placed) (p : Run) : Prop :=
  p.getLast?.any (·.isSymbol ";") = true ∨
    p.getLast?.any (·.isSymbol "\x7d") = true ∧
      (head.or p.head?).any (·.isKeywordIn blockKeywords) = true

theorem IsComplete.cons {p : Run} {t : Placed} (ht : t.isDoc = false)
    (h : IsComplete (headAfter head t) p) : IsComplete head (t :: p) := by
  have hlast {f : Placed → Bool} (hp : p.getLast?.any f = true) :
      (t :: p).getLast?.any f = true := by
    cases p with
    | nil => cases hp
    | cons u p => exact hp
  refine h.imp hlast fun hbrace => ⟨hlast hbrace.1, ?_⟩
  have hhead := hbrace.2
  cases head with
  | some first => simpa [headAfter] using hhead
  | none => simpa [headAfter, ht] using hhead

theorem IsComplete.of_endsAt {next : Option Placed} {t : Placed} (h : endsAt depth head next t = true) :
    IsComplete head [t] := by
  rcases endsAt_iff.1 h with hcut | ⟨⟨hclose, -, hhead⟩, -⟩
  · exact .inl (Bool.and_eq_true_iff.1 hcut).2
  · refine .inr ⟨hclose, ?_⟩
    cases head with
    | none => cases hhead
    | some first => exact hhead

theorem IsComplete.exists_last {p : Run} (h : IsComplete head p) :
    ∃ front t, p = front ++ [t] ∧ isEnd t.toToken = true := by
  have hlast : p.getLast?.any (fun t => isEnd t.toToken) = true := by
    cases hp : p.getLast? with
    | none => simp [IsComplete, hp] at h
    | some t =>
      rw [IsComplete, hp] at h
      exact Bool.or_eq_true_iff.2 (h.imp_right And.left)
  cases hp : p.getLast? with
  | none => simp [hp] at hlast
  | some t =>
    obtain ⟨front, rfl⟩ := List.getLast?_eq_some_iff.1 hp
    exact ⟨front, t, rfl, by simpa using hlast⟩

/-- Every piece but the last one is complete. -/
theorem isComplete_of_splitFrom {done : List Run} {rest : Run} (hcode : ∀ t ∈ ts, t.isDoc = false)
    (h : splitFrom depth head ts = done ++ [rest]) :
    (∀ p ∈ done.head?, IsComplete head p) ∧ ∀ p ∈ done.tail, IsComplete none p := by
  induction ts generalizing depth head done with
  | nil =>
    obtain rfl : done = [] := by
      have := congrArg List.length h
      simpa [splitFrom] using this
    exact ⟨by simp, by simp⟩
  | cons t ts ih =>
    obtain ⟨ht, hcode⟩ := List.forall_mem_cons.1 hcode
    cases done with
    | nil => exact ⟨by simp, by simp⟩
    | cons p done =>
      cases hend : endsAt depth head ts.head? t with
      | true =>
        rw [splitFrom_of_endsAt hend] at h
        obtain ⟨rfl, hdone⟩ := List.cons.inj h
        obtain ⟨hfirst, hrest⟩ := ih hcode hdone
        refine ⟨fun p hp => ?_, fun p hp => ?_⟩
        · obtain rfl := Option.some.inj hp
          exact .of_endsAt hend
        · cases done with
          | nil => cases hp
          | cons q done =>
            rcases List.mem_cons.1 hp with rfl | hp
            · exact hfirst _ rfl
            · exact hrest p hp
      | false =>
        obtain ⟨q, qs, hpieces, -⟩ := exists_first (t.depthAfter depth) (headAfter head t) ts
        rw [splitFrom_of_not_endsAt hend, hpieces] at h
        obtain ⟨rfl, rfl⟩ := List.cons.inj h
        obtain ⟨hfirst, hrest⟩ := @ih _ _ (q :: done) hcode hpieces
        refine ⟨fun p hp => ?_, hrest⟩
        obtain rfl := Option.some.inj hp
        exact (hfirst q rfl).cons ht

theorem split_of_code (hcode : ∀ t ∈ ts, t.isDoc = false) :
    (split ts).flatten = ts ∧ ∀ p ∈ (split ts).dropLast, IsComplete none p := by
  obtain ⟨done, rest, hcut⟩ := exists_cut 0 none ts
  have hdone : ∀ p ∈ done, IsComplete none p := by
    obtain ⟨hfirst, htail⟩ := isComplete_of_splitFrom hcode hcut.pieces
    cases done with
    | nil => exact List.forall_mem_nil _
    | cons p done => exact List.forall_mem_cons.2 ⟨hfirst p rfl, htail⟩
  rw [hcut.split_eq]
  split
  · rename_i hrest
    have hnil : rest = [] := by
      refine List.eq_nil_iff_forall_not_mem.2 fun t ht => ?_
      have hmem : t ∈ ts := by
        rw [← hcut.flatten]
        exact List.mem_append_right _ ht
      have hdoc := List.all_eq_true.1 hrest t ht
      rw [hcode t hmem] at hdoc
      cases hdoc
    have hflatten := hcut.flatten
    rw [hnil, List.append_nil] at hflatten
    exact ⟨hflatten, fun p hp => hdone p ((List.dropLast_sublist done).subset hp)⟩
  · rw [List.dropLast_concat, List.flatten_append, List.flatten_singleton]
    exact ⟨hcut.flatten, hdone⟩

theorem body_cases (code : Run) :
    (∃ t, code = body code ++ [t] ∧ t.isSymbol ";" = true) ∨
      body code = code ∧ code.getLast?.any (·.isSymbol ";") = false := by
  unfold body
  split
  · rename_i hlast
    cases hcode : code.getLast? with
    | none => simp [hcode] at hlast
    | some t =>
      refine .inl ⟨t, ?_, by simpa [hcode] using hlast⟩
      obtain ⟨front, rfl⟩ := List.getLast?_eq_some_iff.1 hcode
      rw [List.dropLast_concat]
  · rename_i hlast
    exact .inr ⟨rfl, by simpa using hlast⟩

/-- A `return` statement is the keyword, its value and perhaps a semicolon. -/
theorem exists_of_classify_ret {code : Run} {value : Option Run} (h : classify code = .ret value) :
    ∃ first tail, code = first :: (value.getD [] ++ tail) ∧ first.isKeyword "return" = true ∧
      ((∃ t, tail = [t] ∧ t.isSymbol ";" = true) ∨
        tail = [] ∧ code.getLast?.any (·.isSymbol ";") = false) := by
  unfold classify at h
  split at h
  · cases h
  · rename_i first rest
    split at h
    · rename_i hreturn
      have hvalue : value.getD [] = (body (first :: rest)).drop 1 := by
        simp only [Class.ret.injEq] at h
        subst h
        split
        · rename_i hempty
          exact (List.isEmpty_iff.1 hempty).symm
        · rfl
      refine ⟨first, ?_⟩
      rw [hvalue]
      have hfirst {t : Placed} (ht : t.isSymbol ";" = true) : t ≠ first := by
        rintro rfl
        have hkind := kind_of_isKeywordIn hreturn
        simp [isSymbol, hkind] at ht
      rcases body_cases (first :: rest) with ⟨t, hcode, ht⟩ | ⟨hbody, hlast⟩
      · refine ⟨[t], ?_, hreturn, .inl ⟨t, rfl, ht⟩⟩
        cases hbody : body (first :: rest) with
        | nil =>
          rw [hbody] at hcode
          exact absurd (List.cons.inj hcode).1.symm (hfirst ht)
        | cons u us =>
          rw [hbody] at hcode
          obtain ⟨rfl, rfl⟩ := List.cons.inj hcode
          rfl
      · refine ⟨[], ?_, hreturn, .inr ⟨rfl, hlast⟩⟩
        rw [hbody, List.append_nil]
        rfl
    · split at h <;> cases h

end Statement

namespace Print

variable {q : Qualifier} {source : List Char} {previous next : Option Token} {ts : Run}

theorem starts_of_isKeyword {t : Token} {word : String} (ht : t.isKeyword word = true)
    (hword : word ∉ ["function", "fn", "new"]) : Starts (some t) := by
  have hkind := kind_of_isKeywordIn ht
  have hno := isKeywordIn_eq_false ht hword
  simp [Starts, introducesMember, isSymbolIn, hkind, hno]

/-- The token after a statement neither ends it nor calls its last name. -/
def EndsStatement (next : Option Token) : Prop := Stops next ∧ next ≠ some (.symbol ";")

namespace Renders

/-- The semicolon of a statement, which may be missing before the end of a block. -/
theorem semicolon {tail : Run}
    (h : (∃ t, tail = [t] ∧ t.isSymbol ";" = true) ∨ tail = [] ∧ next ≠ some (.symbol ";")) :
    Renders q previous tail.tokens next ";" ";" := by
  rcases h with ⟨t, rfl, ht⟩ | ⟨rfl, hnext⟩
  · exact symbol ht (by decide)
  · exact @added q previous next ";" ";" (by decide) (by decide) (by decide) hnext

theorem statement {n : Nat} {piece : Run} (ih : RendersBelow q source n) (hn : piece.length ≤ n)
    (hkeywords : q.SparesKeywords) (hcode : piece.IsCode)
    (hheads : ∀ head ∈ (readStatement source piece).closures, head.CallsNothing q)
    (hstarts : Starts previous)
    (hnext : Statement.IsComplete none piece ∨ EndsStatement next) :
    Renders q previous piece.tokens next ((readStatement source piece).print none)
      ((readStatement source piece).print (some q)) := by
  have hpiece : piece.code = piece := List.filter_eq_self.2 fun t ht => by
    have := (hcode t.toToken (List.mem_map_of_mem ht)).2
    simp [this]
  rw [readStatement_eq, hpiece] at hheads ⊢
  cases hclass : Statement.classify piece with
  | ret value =>
    simp only [hclass] at hheads ⊢
    obtain ⟨first, tail, rfl, hreturn, hlast⟩ := Statement.exists_of_classify_ret hclass
    have hfirst : first.isKeywordIn Statement.blockKeywords = false :=
      isKeywordIn_eq_false hreturn (by decide)
    -- a value without a semicolon is the end of its block
    have htail : (∃ t, tail = [t] ∧ t.isSymbol ";" = true) ∨ tail = [] ∧ EndsStatement next := by
      refine hlast.imp_right fun hlast => ⟨hlast.1, hnext.resolve_left ?_⟩
      rintro (hsemicolon | ⟨-, hblock⟩)
      · rw [hlast.2] at hsemicolon
        cases hsemicolon
      · rw [Option.none_or, List.head?_cons, Option.any_some, hfirst] at hblock
        cases hblock
    have hend (previous : Option Token) : Renders q previous (Run.tokens tail) next ";" ";" :=
      semicolon (htail.imp_right fun h => ⟨h.1, h.2.2⟩)
    have hword {j : String} (hj : _) (next : Option Token) :=
      @keyword q previous next first.toToken "return" j hreturn (hcode _ List.mem_cons_self).1 hj
        fun h => absurd h (hkeywords _ (by decide))
    cases value with
    | none => exact cons (hword (j := "return") (by decide) _) (hend _)
    | some value =>
      have hsublist : value.Sublist (first :: (value ++ tail)) :=
        (List.sublist_append_left value tail).trans (List.sublist_cons_self _ _)
      have hstops : Stops ((Run.tokens tail).head?.or next) := by
        rcases htail with ⟨t, rfl, ht⟩ | ⟨rfl, hends⟩
        · exact stops_of_isSymbol ht (by decide)
        · exact hends.1
      have hvalue := ih value (Nat.lt_of_lt_of_le (by simp) hn) (hcode.of_sublist hsublist)
        hheads (some first.toToken) _ (starts_of_isKeyword hreturn (by decide)) hstops
      have hall := cons (hword (j := "return ") (by decide) _) (append hvalue (hend _))
      rw [Option.map_some, Stmt.print, Stmt.print, String.append_assoc, String.append_assoc,
        Run.tokens_cons, Option.getD_some, Run.tokens_append]
      exact hall
  | expr value =>
    simp only [hclass] at hheads ⊢
    obtain ⟨t, rfl, ht⟩ := Statement.exists_of_classify_expr hclass
    have hvalue := ih value (Nat.lt_of_lt_of_le (by simp) hn)
      (hcode.of_sublist (List.sublist_append_left value [t])) hheads previous (some t.toToken) hstarts
      (stops_of_isSymbol ht (by decide))
    rw [Run.tokens_append]
    exact concat hvalue (@semicolon q _ next [t] (.inl ⟨t, rfl, ht⟩))
  | block =>
    refine tokens hstarts (fun u hu hkind => (hnext.resolve_left fun hcomplete => ?_).1)
      fun t ht => (hcode t ht).2
    obtain ⟨front, t, rfl, ht⟩ := hcomplete.exists_last
    obtain rfl : t.toToken = u := by simpa [Run.tokens] using hu
    simp [Statement.isEnd, isSymbol, hkind] at ht

/-- Statements with spaces between them. All but the last one are complete. -/
theorem sentences {n : Nat} {pieces : List Run} (ih : RendersBelow q source n)
    (hkeywords : q.SparesKeywords)
    (hpieces : ∀ p ∈ pieces, p.length ≤ n ∧ Run.IsCode p ∧
      ∀ head ∈ (readStatement source p).closures, head.CallsNothing q)
    (hcomplete : ∀ p ∈ pieces.dropLast, Statement.IsComplete none p) (hstarts : Starts previous)
    (hnext : EndsStatement next) :
    Renders q previous (Run.tokens pieces.flatten) next
      (" ".intercalate (pieces.map fun p => (readStatement source p).print none))
      (" ".intercalate (pieces.map fun p => (readStatement source p).print (some q))) := by
  induction pieces generalizing previous with
  | nil => exact nil
  | cons p pieces ihpieces =>
    obtain ⟨⟨hp, hcode, hheads⟩, hpieces⟩ := List.forall_mem_cons.1 hpieces
    cases pieces with
    | nil => simpa using statement ih hp hkeywords hcode hheads hstarts (.inr hnext)
    | cons p' pieces =>
      obtain ⟨hend, hcomplete⟩ := List.forall_mem_cons.1 hcomplete
      have hbefore : Starts ((Run.tokens p).getLast?.or previous) := by
        obtain ⟨front, t, rfl, ht⟩ := hend.exists_last
        simp only [Statement.isEnd, Bool.or_eq_true] at ht
        have hlast : (Run.tokens (front ++ [t])).getLast? = some t.toToken := by simp [Run.tokens]
        rw [hlast]
        exact ht.elim (starts_of_isSymbol · (by decide)) (starts_of_isSymbol · (by decide))
      have hfirst := @statement q source previous ((Run.tokens (p' :: pieces).flatten).head?.or next)
        n p ih hp hkeywords hcode hheads hstarts (.inl hend)
      have hall := hfirst.append (ihpieces hpieces hcomplete hbefore).space
      simpa [String.intercalate_cons_cons, String.append_assoc, Run.tokens_append] using hall

/-- The statements of a block. -/
theorem statements {n : Nat} {block : Run} (ih : RendersBelow q source n) (hn : block.length ≤ n)
    (hkeywords : q.SparesKeywords) (hcode : block.IsCode)
    (hheads : ∀ head ∈ closuresOfStatements (readStatements source block), head.CallsNothing q)
    (hstarts : Starts previous) (hnext : EndsStatement next) :
    Renders q previous block.tokens next
      (" ".intercalate (printStatements none (readStatements source block)))
      (" ".intercalate (printStatements (some q) (readStatements source block))) := by
  have hdocs : ∀ t ∈ block, t.isDoc = false := fun t ht =>
    (hcode t.toToken (List.mem_map_of_mem ht)).2
  obtain ⟨hflatten, hcomplete⟩ := Statement.split_of_code hdocs
  have hpieces : ∀ p ∈ Statement.split block, p.length ≤ n ∧ Run.IsCode p ∧
      ∀ head ∈ (readStatement source p).closures, head.CallsNothing q := by
    intro p hp
    refine ⟨(Statement.length_le_of_mem_split hp).trans hn,
      hcode.of_sublist (Statement.neighbours_of_mem_split hp).1.sublist, fun head hhead => ?_⟩
    refine hheads head (mem_closuresOfStatements.2 ⟨_, ?_, hhead⟩)
    rw [readStatements_eq_map]
    exact List.mem_map_of_mem hp
  have hall := sentences ih hkeywords hpieces hcomplete hstarts hnext
  rw [printStatements_eq_map, printStatements_eq_map, readStatements_eq_map, List.map_map, List.map_map]
  rwa [hflatten] at hall

end Renders

end Print

end CurryGen

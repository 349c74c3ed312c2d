import CurryGen.Proofs.Token.Separator
import CurryGen.Proofs.Token.Spacing
import CurryGen.Proofs.Tree.Form
import CurryGen.Proofs.Tree.Param
import CurryGen.Proofs.Tree.Print
import CurryGen.Proofs.Tree.Renders

/-!
# Rendered runs and lists

What an expression is made of besides other expressions: runs of tokens that are written as they are,
lists, and what a closure declares. Parameters and captures are read from pieces of a run, and what
they do not need of it is left out of both texts.

* `Print.Renders.tokens`: a run that is written as it is, with normalised spacing, is qualified like
  everything else.
* `Print.Renders.list`: the elements of a list are rendered between commas.
* `Print.CallsNothing`: no library function is called in a text.
* `Print.Renders.params`, `Print.Renders.captures`: the parameters and the captures of a closure.
-/

namespace CurryGen

open Scan Token

namespace Print

/-- A name that starts after this token is no member and no declaration. -/
def Starts (previous : Option Token) : Prop := previous.any introducesMember = false

/-- A name that stops before this token is not called. -/
def Stops (next : Option Token) : Prop := next.any (·.isSymbol "(") = false

variable {q : Qualifier} {previous next : Option Token} {ts us : List Token} {t : Token}

theorem Stops.ne_parenthesis (h : Stops next) : next ≠ some (.symbol "(") := by
  rintro rfl
  exact absurd h (by simp [Stops, isSymbol, Token.symbol])

theorem starts_of_isSymbol {sym : String} (ht : t.isSymbol sym = true)
    (hsym : sym ∉ ["::", "->", "?->"]) : Starts (some t) := by
  simp only [isSymbol, Bool.and_eq_true, beq_iff_eq] at ht
  simp only [List.mem_cons, List.not_mem_nil, or_false] at hsym
  simp [Starts, introducesMember, isSymbolIn, isKeywordIn, ht.1, ht.2, hsym]

theorem stops_of_isSymbol {sym : String} (ht : t.isSymbol sym = true) (hsym : sym ≠ "(") :
    Stops (some t) := by
  simp only [isSymbol, Bool.and_eq_true, beq_iff_eq] at ht
  simp [Stops, isSymbol, ht.2, hsym]

theorem stops_of_isClose (ht : t.isClose = true) : Stops (some t) := by
  simp only [isClose, Bool.and_eq_true, List.contains_iff_mem] at ht
  have hne : ∀ text ∈ [")", "]", "\x7d"], text ≠ "(" := by decide
  simp [Stops, isSymbol, hne _ ht.2]

/-- A member, or what `function`, `fn` or `new` stands before, is called by no library name. -/
theorem callsLibrary_of_introduces {p : Token} (hp : introducesMember p = true) (t : Token)
    (next : Option Token) : callsLibrary q (some p) t next = false := by
  simp [callsLibrary, hp]

theorem introduces_of_isKeyword {word : String} (ht : t.isKeyword word = true)
    (hword : word ∈ ["function", "fn", "new"]) : introducesMember t = true := by
  simp only [isKeyword, isKeywordIn, Bool.and_eq_true, List.contains_iff_mem,
    List.mem_singleton] at ht
  have hin : t.isKeywordIn ["function", "fn", "new"] = true := by
    rw [isKeywordIn, ht.1, ht.2, Bool.true_and, List.contains_iff_mem]
    exact hword
  rw [introducesMember, hin, Bool.or_true]

theorem introduces_of_isSymbol {sym : String} (ht : t.isSymbol sym = true)
    (hsym : sym ∈ ["::", "->", "?->"]) : introducesMember t = true := by
  rw [eq_of_isSymbol ht, introducesMember, isSymbolIn]
  simp [Token.symbol, hsym]

/-! ## Runs with normalised spacing -/

theorem kind_of_callsLibrary (h : callsLibrary q previous t next = true) : t.kind = .name := by
  simp only [callsLibrary, Bool.and_eq_true, beq_iff_eq] at h
  exact h.1.1.1

theorem isUnary_of_name (ht : t.kind = .name) : isUnary previous t = false := by
  simp [isUnary, isSymbolIn, ht]

/-- All names are spaced alike. -/
theorem needsSpace_of_name {t' p : Token} (ht : t.kind = .name) (ht' : t'.kind = .name) (unary : Bool) :
    needsSpace p unary t = needsSpace p unary t' := by
  simp [needsSpace, isSymbolIn, isSymbol, ht, ht']

theorem spacedAfter_cons {p : Token} {unary : Bool} :
    spacedAfter p unary (t :: ts) =
      (if needsSpace p unary t then [" "] else []) ++
        t.text :: spacedAfter t (isUnary (some p) t) ts := by
  rw [spacedAfter]
  split <;> rfl

/-- Nothing stands between the class name and the name that it qualifies. -/
theorem spacedAfter_className (ht : t.kind = .name) :
    spacedAfter ⟨.name, q.className⟩ false (.symbol "::" :: t :: ts) =
      "::" :: t.text :: spacedAfter t false ts := by
  have hscope : needsSpace ⟨.name, q.className⟩ false (.symbol "::") = false := by
    simp [needsSpace, isSymbolIn, Token.symbol]
  have hname : needsSpace (.symbol "::") false t = false := by
    simp [needsSpace, isSymbolIn, Token.symbol]
  have hunary : isUnary (some ⟨.name, q.className⟩) (.symbol "::") = false := by
    simp [isUnary, isSymbolIn, Token.symbol]
  rw [spacedAfter_cons, hscope, hunary, spacedAfter_cons, hname, isUnary_of_name ht]
  rfl

/-- What is called in a run does not depend on what follows, if that does not call its last name. -/
theorem callsLibrary_within (hlast : ∀ u ∈ (t :: ts).getLast?, u.kind = .name → Stops next) :
    callsLibrary q previous t (ts.head?.or next) = callsLibrary q previous t ts.head? := by
  cases ts with
  | cons u ts => rfl
  | nil =>
    by_cases ht : t.kind = .name
    · exact callsLibrary_or (hlast t rfl ht) t none
    · simp [callsLibrary, ht]

namespace Renders

theorem spacedAfter {p : Token} {unary : Bool}
    (hlast : ∀ u ∈ (p :: ts).getLast?, u.kind = .name → Stops next) :
    Renders q (some p) ts next (String.join (Token.spacedAfter p unary ts))
      (String.join (Token.spacedAfter p unary (qualifyAfter q (some p) ts))) := by
  induction ts generalizing p unary with
  | nil => exact nil
  | cons t ts ih =>
    rw [List.getLast?_cons_cons] at hlast
    have htext := cons (token q (some p) t _) (@ih t (isUnary (some p) t) hlast)
    rw [marked, callsLibrary_within hlast] at htext
    rw [spacedAfter_cons, qualifyAfter]
    cases hcall : callsLibrary q (some p) t ts.head? with
    | true =>
      -- the class name takes the space before the name
      have ht := kind_of_callsLibrary hcall
      simp only [hcall, if_true, isUnary_of_name ht] at htext ⊢
      rw [spacedAfter_cons, isUnary_of_name rfl, spacedAfter_className ht,
        @needsSpace_of_name ⟨.name, q.className⟩ t p rfl ht]
      cases needsSpace p unary t with
      | true => simpa [String.append_assoc] using htext.space
      | false => simpa [String.append_assoc] using htext
    | false =>
      simp only [hcall, Bool.false_eq_true, if_false] at htext ⊢
      rw [spacedAfter_cons]
      cases needsSpace p unary t with
      | true => simpa using htext.space
      | false => simpa using htext

theorem spaced (hstarts : Starts previous) (hlast : ∀ u ∈ ts.getLast?, u.kind = .name → Stops next) :
    Renders q previous ts next (String.join (Token.spaced ts))
      (String.join (Token.spaced (qualifyAfter q none ts))) := by
  cases ts with
  | nil => exact nil
  | cons t ts =>
    have hnone : callsLibrary q previous t ts.head? = callsLibrary q none t ts.head? := by
      have hstarts : previous.any introducesMember = false := hstarts
      simp [callsLibrary, hstarts]
    have htext := cons (token q previous t _) (@spacedAfter q next ts t (isUnary none t) hlast)
    rw [marked, callsLibrary_within hlast, hnone] at htext
    rw [Token.spaced, qualifyAfter]
    cases hcall : callsLibrary q none t ts.head? with
    | true =>
      have ht := kind_of_callsLibrary hcall
      simp only [hcall, if_true, isUnary_of_name ht] at htext ⊢
      rw [Token.spaced, isUnary_of_name rfl, spacedAfter_className ht]
      simpa [String.append_assoc] using htext
    | false =>
      simp only [hcall, Bool.false_eq_true, if_false] at htext ⊢
      simpa [Token.spaced] using htext

/-- A run that is copied is qualified like what is read of a run. -/
theorem tokens (hstarts : Starts previous) (hlast : ∀ u ∈ ts.getLast?, u.kind = .name → Stops next)
    (hcode : ∀ t ∈ ts, t.isDoc = false) :
    Renders q previous ts next (Print.tokens none ts) (Print.tokens (some q) ts) := by
  have hqualified : ∀ t ∈ qualifyAfter q none ts, t.isDoc = false := by
    intro t ht
    rcases Closed.mem_qualifyAfter ht with ht | rfl | rfl
    · exact hcode t ht
    · rfl
    · rfl
  unfold Print.tokens Token.format
  simp only
  rw [List.filter_eq_self.2 fun t ht => by simp [hcode t ht],
    List.filter_eq_self.2 fun t ht => by simp [hqualified t ht]]
  exact spaced hstarts hlast

/-! ## Lists -/

/-- Elements between commas, one after another. -/
theorem joined {α : Type} {tokensOf : α → List Token} {f g : α → String} {xs : List α}
    (hxs : ∀ x ∈ xs, ∀ previous next, Starts previous → Stops next →
      Renders q previous (tokensOf x) next (f x) (g x))
    (hstarts : Starts previous) (hstops : Stops next) :
    Renders q previous ([.symbol ","].intercalate (xs.map tokensOf)) next
      (", ".intercalate (xs.map f)) (", ".intercalate (xs.map g)) := by
  induction xs generalizing previous with
  | nil => exact nil
  | cons x xs ih =>
    obtain ⟨hx, hxs⟩ := List.forall_mem_cons.1 hxs
    cases xs with
    | nil => simpa using hx previous next hstarts hstops
    | cons y ys =>
      have hcomma : (Token.symbol ",").isSymbol "," = true := rfl
      have hrest := ih hxs (starts_of_isSymbol hcomma (by decide))
      have hlist := (hx previous _ hstarts (stops_of_isSymbol hcomma (by decide))).append
        (cons (symbol hcomma (j := ", ") (by decide)) hrest)
      simpa [List.intercalate_cons_cons, String.intercalate_cons_cons, String.append_assoc] using hlist

end Renders

end Print

namespace Run

/-- The pieces of a run with the separators between them. -/
theorem tokens_eq_intercalate_piecesFrom (text : String) (depth : Nat) (ts : Run) :
    ts.tokens = [.symbol text].intercalate ((piecesFrom text depth ts).map tokens) := by
  induction ts generalizing depth with
  | nil => rfl
  | cons t ts ih =>
    rw [piecesFrom]
    split
    · rename_i hcut
      obtain ⟨p, ps, hps⟩ := List.exists_cons_of_ne_nil (piecesFrom_ne_nil depth ts)
      rw [tokens_cons, ih depth, hps, eq_of_isSymbol (Bool.and_eq_true_iff.1 hcut).2]
      simp [List.intercalate_cons_cons, tokens]
    · obtain ⟨p, ps, hps⟩ :=
        List.exists_cons_of_ne_nil (piecesFrom_ne_nil (t.depthAfter depth) ts)
      rw [tokens_cons, ih, hps, push]
      cases ps with
      | nil => simp [tokens]
      | cons p' ps => simp [tokens, List.intercalate_cons_cons]

/-- A run is its pieces with the separators between them, and perhaps one separator more. -/
theorem tokens_splitTopLevel (text : String) (ts : Run) :
    ts.tokens = [.symbol text].intercalate ((ts.splitTopLevel text).map tokens) ∨
      ts.tokens = [.symbol text].intercalate ((ts.splitTopLevel text).map tokens) ++ [.symbol text] := by
  have hpieces := tokens_eq_intercalate_piecesFrom text 0 ts
  unfold splitTopLevel dropEmptyLast
  split
  · rename_i hlast
    obtain ⟨pieces, hsplit⟩ := List.getLast?_eq_some_iff.1 hlast
    rw [hsplit, List.map_append] at hpieces
    rw [hsplit, List.dropLast_concat]
    cases pieces with
    | nil => exact .inl hpieces
    | cons p pieces =>
      refine .inr (hpieces.trans ?_)
      exact intercalate_concat_nil _ (by simp)
  · exact .inl hpieces

end Run

namespace Print.Renders

variable {q : Qualifier} {previous next : Option Token} {ts us : List Token} {t : Token} {s s' : String}

/-- The elements of a list between commas. A comma after the last of them is left out. -/
theorem list {inner : Run} {f g : Run → String}
    (h : ∀ x ∈ inner.splitTopLevel ",", ∀ previous next, Starts previous → Stops next →
      Renders q previous (Run.tokens x) next (f x) (g x))
    (hstarts : Starts previous) (hstops : Stops next) :
    Renders q previous inner.tokens next (", ".intercalate ((inner.splitTopLevel ",").map f))
      (", ".intercalate ((inner.splitTopLevel ",").map g)) := by
  rcases inner.tokens_splitTopLevel "," with htokens | htokens <;> rw [htokens]
  · exact joined h hstarts hstops
  · have hcomma : (Token.symbol ",").isSymbol "," = true := rfl
    have hlist := (joined h hstarts (stops_of_isSymbol hcomma (by decide))).append
      (@lossy q _ next [.symbol ","] "" "" (by decide))
    simpa using hlist

/-! ## Lists that leave out elements -/

/-- The text that is written for the token that ends an element: a comma or a closing bracket. -/
def IsStop (t : Token) (j : String) : Prop :=
  t = .symbol "," ∧ j = ", " ∨ t.isClose = true ∧ j = ")"

theorem IsStop.stops {j : String} (h : IsStop t j) : Stops (some t) := by
  rcases h with ⟨rfl, -⟩ | ⟨ht, -⟩
  · exact stops_of_isSymbol (rfl : (Token.symbol ",").isSymbol "," = true) (by decide)
  · exact stops_of_isClose ht

theorem stop {j : String} (h : IsStop t j) : Renders q previous [t] next j j := by
  rcases h with ⟨rfl, rfl⟩ | ⟨ht, rfl⟩
  · exact symbol (rfl : (Token.symbol ",").isSymbol "," = true) (by decide)
  · exact closing ht (by decide)

/-- What is left of an element before its end. It begins with neither a comma nor a closing bracket,
unless that closes something in front of it. -/
theorem skip_stop {rest : List Token} {k : Nat} {j : String} (hbalanced : balanced k rest = true)
    (hstands : ∀ u ∈ rest, Stands u []) (h : IsStop t j) :
    Renders q previous (rest ++ [t]) next j j := by
  refine skip (fun hweight => ?_) (stop h)
  have hcloses := closes_eq_of_balanced hstands hweight hbalanced
  refine ⟨by omega, fun hlevel y vs hcovers => ?_⟩
  obtain rfl : k = 0 := by omega
  cases rest with
  | nil => rfl
  | cons u rest =>
    exfalso
    have hclose : u.isClose = false := by simpa using (balanced_cons hbalanced).1
    have hfirst := (weight_texts_cons hweight).1
    rcases h with ⟨rfl, rfl⟩ | ⟨-, rfl⟩
    · have hcovers : Covers (",".toList ++ ' ' :: y) (u :: rest ++ vs) := hcovers
      obtain rfl := Option.some.inj (hcovers.head?_of_solitary (by decide))
      exact absurd hfirst (by decide)
    · obtain rfl := Option.some.inj (hcovers.head?_of_solitary (by decide))
      exact absurd hclose (by decide)

section

variable {α : Type} {f : Run → Option α} {text : α → String}

theorem filterMap_splitTopLevel (hf : f [] = none) (ts : Run) :
    (ts.splitTopLevel ",").filterMap f = (Run.piecesFrom "," 0 ts).filterMap f := by
  unfold Run.splitTopLevel Run.dropEmptyLast
  split
  · rename_i hlast
    obtain ⟨pieces, hpieces⟩ := List.getLast?_eq_some_iff.1 hlast
    rw [hpieces, List.dropLast_concat, List.filterMap_append]
    simp [hf]
  · rfl

/-- The elements of a list up to its closing bracket. Pieces that are no elements are left out. -/
theorem elements {pieces : List Run} (hne : pieces ≠ [])
    (hpieces : ∀ p ∈ pieces, balanced 0 p.tokens = true ∧ ∀ u ∈ p.tokens, Stands u [])
    (h : ∀ p ∈ pieces, ∀ x, f p = some x → ∀ previous next t j, Starts previous → IsStop t j →
      Renders q previous (p.tokens ++ [t]) next (text x ++ j) (text x ++ j))
    (ht : t.isClose = true) (hstarts : Starts previous) :
    Renders q previous ([.symbol ","].intercalate (pieces.map Run.tokens) ++ [t]) next
      (", ".intercalate ((pieces.filterMap f).map text) ++ ")")
      (", ".intercalate ((pieces.filterMap f).map text) ++ ")") := by
  induction pieces generalizing previous with
  | nil => exact absurd rfl hne
  | cons p pieces ih =>
    obtain ⟨hp, hpieces⟩ := List.forall_mem_cons.1 hpieces
    obtain ⟨hfirst, h⟩ := List.forall_mem_cons.1 h
    cases pieces with
    | nil =>
      rw [List.map_singleton, List.intercalate_singleton]
      cases hx : f p with
      | none => simpa [hx] using skip_stop hp.1 hp.2 (.inr ⟨ht, rfl⟩)
      | some x => simpa [hx] using hfirst x hx previous next t ")" hstarts (.inr ⟨ht, rfl⟩)
    | cons p' pieces =>
      have hcomma : (Token.symbol ",").isSymbol "," = true := rfl
      have hrest := @ih (some (.symbol ",")) (by simp) hpieces h
        (starts_of_isSymbol hcomma (by decide))
      rw [List.map_cons, List.map_cons, List.intercalate_cons_cons, ← List.map_cons, List.append_assoc]
      cases hx : f p with
      | none =>
        have hweight : 0 < Text.weight (texts (p.tokens ++ [.symbol ","])) := by
          rw [texts_append, Text.weight_append]
          exact Nat.lt_add_left _ (by decide)
        rw [List.filterMap_cons_none hx]
        exact skip_weighty hweight (by simpa using hrest)
      | some x =>
        rw [List.filterMap_cons_some hx]
        have hx (next : Option Token) :=
          hfirst x hx previous next (.symbol ",") ", " hstarts (.inl ⟨rfl, rfl⟩)
        cases hxs : (p' :: pieces).filterMap f with
        | nil =>
          -- no comma is written after the last element
          have hweight : Text.weight (text x).toList <
              Text.weight (texts (p.tokens ++ [.symbol ","])) := by
            have hle := (hx none).within.weight_le
            rw [String.toList_append, Text.weight_append] at hle
            exact Nat.lt_of_lt_of_le (Nat.lt_add_of_pos_right (by decide)) hle
          have hall : Renders q previous _ next (text x ++ ")") (text x ++ ")") :=
            (lossy hweight).append (by simpa [hxs] using hrest)
          simpa using hall
        | cons y ys =>
          rw [hxs] at hrest
          have hall := (hx _).append (by simpa using hrest)
          simpa [String.intercalate_cons_cons, String.append_assoc] using hall

end

end Print.Renders

namespace Param

/-! ## Parameters -/

/-- A piece that declares a parameter is what the parameter is read from, and what is passed over
after its variable. -/
theorem exists_front {ts : Run} {p : Param} (h : ofRun? ts = some p) :
    ∃ before v after rest, ts.tokens = before ++ v :: after ++ rest ∧
      (∀ t ∈ before, t.isVariable = false) ∧ v.isVariable = true ∧
      (after = [] ∨ rest = [] ∧ after.head?.any (·.isSymbol "=") = true) ∧
      ∀ {us : Run}, us.tokens = before ++ v :: after → ofRun? us = some p := by
  obtain ⟨before, v, after, hts, hbefore, hv⟩ : ∃ before v after, ts.tokens = before ++ v :: after ∧
      (∀ t ∈ before, t.isVariable = false) ∧ v.isVariable = true := by
    obtain ⟨v, after, hsplit, hvariable⟩ := exists_variable_of_ofRun? h
    refine ⟨Run.tokens (ts.takeWhile (!·.isVariable)), v.toToken, Run.tokens after, ?_, ?_, hvariable⟩
    · rw [← Run.tokens_cons, ← hsplit, ← Run.tokens_append, List.takeWhile_append_dropWhile]
    · intro t ht
      obtain ⟨u, hu, rfl⟩ := List.mem_map.1 ht
      simpa using List.mem_takeWhile_imp hu
  rw [ofRun?_of_tokens hbefore hv hts] at h
  cases hsign : after.head?.any (·.isSymbol "=") with
  | true =>
    refine ⟨before, v, after, [], by simpa using hts, hbefore, hv, .inr ⟨rfl, hsign⟩, fun hus => ?_⟩
    rw [ofRun?_of_tokens hbefore hv hus, h]
  | false =>
    refine ⟨before, v, [], after, by simpa using hts, hbefore, hv, .inl rfl, fun hus => ?_⟩
    have hnone : defaultOf after = none := by
      cases after with
      | nil => rfl
      | cons t after =>
        have ht : t.isSymbol "=" = false := hsign
        rw [defaultOf, ht]
        rfl
    rw [hnone] at h
    rw [ofRun?_of_tokens hbefore hv hus, ← h]
    rfl

/-- A test of characters that only brackets and semicolons pass. -/
def IsLightTest (f : Char → Bool) : Prop := ∀ c, Text.isLight c = false → f c = false

theorem IsLightTest.countP_eq_zero {f : Char → Bool} (hf : IsLightTest f) {u : List Char}
    (hu : u.all (!Text.isLight ·) = true) : u.countP f = 0 := by
  refine List.countP_eq_zero.2 fun c hc => ?_
  have hlight := List.all_eq_true.1 hu c hc
  simp only [Bool.not_eq_true'] at hlight
  simp [hf c hlight]

theorem countP_typeParts {f : Char → Bool} (hf : IsLightTest f) {before : List Token}
    (hstands : ∀ t ∈ before, Stands t []) :
    (texts (before.filter isTypePart)).countP f = (texts before).countP f := by
  induction before with
  | nil => rfl
  | cons t before ih =>
    obtain ⟨ht, hbefore⟩ := List.forall_mem_cons.1 hstands
    have ih := ih hbefore
    rw [List.filter_cons]
    split
    · rw [texts_cons, texts_cons, List.countP_append, List.countP_append, ih]
    · rename_i hpart
      have hlight : t.text.toList.all (!Text.isLight ·) = true := by
        simp only [isTypePart, Bool.and_eq_true, Bool.not_eq_true', not_and, Bool.not_eq_false] at hpart
        by_cases href : t.isSymbol "&" = true
        · rw [eq_of_isSymbol href]
          decide
        · by_cases hdots : t.isSymbol "..." = true
          · rw [eq_of_isSymbol hdots]
            decide
          · have hmodifier := hpart ⟨Bool.eq_false_iff.2 href, Bool.eq_false_iff.2 hdots⟩
            refine List.all_eq_true.2 fun c hc => ?_
            have hweighty := ht.isWeighty_of_name (kind_of_isKeywordIn hmodifier) c hc
            simp only [Text.isWeighty, Bool.and_eq_true] at hweighty
            exact hweighty.2
      rw [ih, texts_cons, List.countP_append, hf.countP_eq_zero hlight, Nat.zero_add]

theorem countP_declaration {f : Char → Bool} (hf : IsLightTest f) (p : Param) :
    p.declaration.toList.countP f = p.type.elim 0 (·.toList.countP f) + p.name.toList.countP f +
      p.default.elim 0 (·.toList.countP f) := by
  have hmarks : f ' ' = false ∧ f '&' = false ∧ f '.' = false ∧ f '$' = false ∧ f '=' = false := by
    refine ⟨?_, ?_, ?_, ?_, ?_⟩ <;> exact hf _ (by decide)
  obtain ⟨name, type, default, byRef, variadic⟩ := p
  unfold declaration
  simp only [String.toList_append, List.countP_append]
  cases type <;> cases default <;> cases byRef <;> cases variadic <;> simp [hmarks]

theorem countP_of_ofRun? {f : Char → Bool} (hf : IsLightTest f) {ts : Run} {p : Param}
    {before after : List Token} {v : Token}
    (hts : ts.tokens = before ++ v :: after) (hbefore : ∀ t ∈ before, t.isVariable = false)
    (hv : v.isVariable = true) (hafter : after = [] ∨ after.head?.any (·.isSymbol "=") = true)
    (hstands : ∀ t ∈ ts.tokens, Stands t []) (hcode : ∀ t ∈ ts.tokens, t.isDoc = false)
    (h : ofRun? ts = some p) : p.declaration.toList.countP f = (texts ts.tokens).countP f := by
  rw [ofRun?_of_tokens hbefore hv hts] at h
  rw [hts] at hstands hcode ⊢
  obtain rfl := Option.some.inj h
  obtain ⟨hbefore, hrest⟩ := List.forall_mem_append.1 hstands
  have hparts := countP_typeParts hf hbefore
  have hname : (v.variableName?.getD "").toList.countP f = v.text.toList.countP f := by
    obtain ⟨c, w, htext, hbegins⟩ := (hrest v List.mem_cons_self).begins
    have hkind : v.kind = .variable := eq_of_beq hv
    rw [hkind] at hbegins
    obtain rfl : c = '$' := hbegins
    simp [variableName?, hkind, htext, hf '$' (by decide)]
  have htype : (if (before.filter isTypePart).isEmpty then none
      else some (String.join ((before.filter isTypePart).map (·.text)))).elim 0 (·.toList.countP f) =
        (texts before).countP f := by
    rw [← hparts]
    cases before.filter isTypePart with
    | nil => rfl
    | cons t ts => simp [texts, List.flatMap_map, String.toList_join]
  have hdefault : (defaultOf after).elim 0 (·.toList.countP f) = (texts after).countP f := by
    cases after with
    | nil => rfl
    | cons t value =>
      have ht : t.isSymbol "=" = true := by simpa using hafter
      have hvalue : value.filter (!·.isDoc) = value := List.filter_eq_self.2 fun u hu => by
        simp [hcode u (by simp [hu])]
      have hsign : (Token.symbol "=").text.toList.countP f = 0 := hf.countP_eq_zero (by decide)
      rw [defaultOf, if_pos ht, Option.elim_some, countP_format (hf ' ' (by decide)), hvalue,
        eq_of_isSymbol ht, texts_cons, List.countP_append, hsign, Nat.zero_add]
      rfl
  rw [countP_declaration hf, htype, hname, hdefault, texts_append, texts_cons, List.countP_append,
    List.countP_append, Nat.add_assoc]

theorem alike_of_ofRun? {ts : Run} {p : Param} {before after : List Token} {v : Token}
    (hts : ts.tokens = before ++ v :: after) (hbefore : ∀ t ∈ before, t.isVariable = false)
    (hv : v.isVariable = true) (hafter : after = [] ∨ after.head?.any (·.isSymbol "=") = true)
    (hstands : ∀ t ∈ ts.tokens, Stands t []) (hcode : ∀ t ∈ ts.tokens, t.isDoc = false)
    (h : ofRun? ts = some p) : Text.Alike p.declaration.toList (texts ts.tokens) := by
  have hcount {f : Char → Bool} (hf : IsLightTest f) :=
    countP_of_ofRun? hf hts hbefore hv hafter hstands hcode h
  refine ⟨hcount fun _ hc => hc, hcount fun c hc => ?_, hcount fun c hc => ?_⟩ <;>
    simp_all [Text.isLight]

end Param

namespace Print

variable {q : Qualifier} {previous next : Option Token}

/-- No library function is called in this text. -/
def CallsNothing (q : Qualifier) (text : String) : Prop :=
  ∀ run, scan text.toList = .ok run → run.libraryCalls q none = []

theorem libraryCalls_of_starts (hstarts : Starts previous) (run : Run) :
    run.libraryCalls q previous = run.libraryCalls q none := by
  cases run with
  | nil => rfl
  | cons t run =>
    have hstarts : previous.any introducesMember = false := hstarts
    simp [Run.libraryCalls, callsLibrary, hstarts]

theorem quiet_of_libraryCalls {run : Run} (h : run.libraryCalls q previous = [])
    (hlast : ∀ u ∈ run.tokens.getLast?, u.kind = .name → Stops next) :
    Quiet q previous next run.tokens := by
  induction run generalizing previous with
  | nil => trivial
  | cons t run ih =>
    rw [Run.tokens_cons] at hlast ⊢
    have hhead : run.head?.map (·.toToken) = (Run.tokens run).head? := List.head?_map.symm
    simp only [Run.libraryCalls, hhead] at h
    split at h
    · cases h
    · rename_i hcall
      refine ⟨?_, ih h fun u hu => hlast u ?_⟩
      · rw [callsLibrary_within hlast]
        exact Bool.not_eq_true _ ▸ hcall
      · rw [List.getLast?_cons, Option.mem_def.1 hu]
        rfl

theorem CallsNothing.quiet {text : String} {ts : List Token} (h : CallsNothing q text)
    (hcovers : Covers text.toList ts) (hstarts : Starts previous)
    (hlast : ∀ u ∈ ts.getLast?, u.kind = .name → Stops next) : Quiet q previous next ts := by
  obtain ⟨run, hscan, rfl⟩ := scans_iff.1 hcovers.scans
  exact quiet_of_libraryCalls ((libraryCalls_of_starts hstarts run).trans (h run hscan)) hlast

namespace Renders

/-- A declared parameter up to the comma or the bracket after it. -/
theorem param {piece : Run} {p : Param} (hp : Param.ofRun? piece = some p)
    (hbalanced : balanced 0 piece.tokens = true) (hstands : ∀ t ∈ piece.tokens, Stands t [])
    (hcode : ∀ t ∈ piece.tokens, t.isDoc = false) (hquiet : CallsNothing q p.declaration)
    (hstarts : Starts previous) {t : Token} {j : String} (hstop : IsStop t j) :
    Renders q previous (piece.tokens ++ [t]) next (p.declaration ++ j) (p.declaration ++ j) := by
  obtain ⟨before, v, after, rest, htokens, hbefore, hv, hafter, hread⟩ := Param.exists_front hp
  obtain ⟨front, rest', rfl, hfront, rfl⟩ := Run.exists_append_of_tokens htokens
  rw [Run.tokens_append] at hbalanced hstands hcode ⊢
  obtain ⟨hstands, hrest⟩ := List.forall_mem_append.1 hstands
  obtain ⟨hcode, -⟩ := List.forall_mem_append.1 hcode
  have hread := hread hfront
  have halike := Param.alike_of_ofRun? hfront hbefore hv (hafter.imp_right And.right) hstands hcode hread
  have hsolid := Param.solid_declaration_le hread hstands
  have hweight : Text.weight p.declaration.toList ≤ Text.weight (texts front.tokens) := by
    have hsum : Token.solid front.tokens = Text.solid (texts front.tokens) := rfl
    rw [hsum, Text.solid_eq, Text.solid_eq, halike.1] at hsolid
    omega
  obtain ⟨k, hk⟩ := exists_balanced_of_append hbalanced
  rw [List.append_assoc]
  refine (kept hweight halike fun hcovers => ?_).append (skip_stop hk hrest hstop)
  refine hquiet.quiet hcovers hstarts ?_
  rw [hfront]
  intro u hu hkind
  rcases hafter with rfl | ⟨hnil, -⟩
  · have hu : v = u := by simpa using hu
    have hv : v.kind = .variable := eq_of_beq hv
    rw [hu, hkind] at hv
    cases hv
  · rw [hnil, List.nil_append]
    exact hstop.stops

end Renders

end Print

theorem Run.exists_of_balanced_piecesFrom {text : String} {k : Nat} {ts : Run}
    (h : balanced k ts.tokens = true) :
    ∃ p ps, piecesFrom text k ts = p :: ps ∧ balanced k p.tokens = true ∧
      ∀ p ∈ ps, balanced 0 p.tokens = true := by
  induction ts generalizing k with
  | nil => exact ⟨[], [], rfl, h, List.forall_mem_nil _⟩
  | cons t ts ih =>
    obtain ⟨hclose, hrest⟩ := balanced_cons h
    obtain ⟨p, ps, hpieces, hp, hps⟩ := ih hrest
    rw [piecesFrom]
    split
    · rename_i hcut
      simp only [cutsAt, Bool.and_eq_true, Bool.not_eq_true'] at hcut
      obtain rfl : k = 0 := eq_of_beq hcut.1.1.1
      have hdepth : t.depthAfter 0 = 0 := by simp [depthAfter, hcut.1.1.2, hcut.1.2]
      rw [hdepth] at hpieces hp
      exact ⟨[], p :: ps, by rw [hpieces], rfl, List.forall_mem_cons.2 ⟨hp, hps⟩⟩
    · refine ⟨t :: p, ps, by rw [hpieces]; rfl, ?_, hps⟩
      rw [Run.tokens_cons, balanced, hclose, hp]
      rfl

theorem Run.balanced_of_mem_piecesFrom {text : String} {ts p : Run} (h : balanced 0 ts.tokens = true)
    (hp : p ∈ piecesFrom text 0 ts) : balanced 0 p.tokens = true := by
  obtain ⟨first, rest, hpieces, hfirst, hrest⟩ := exists_of_balanced_piecesFrom h
  rw [hpieces] at hp
  rcases List.mem_cons.1 hp with rfl | hp
  · exact hfirst
  · exact hrest p hp

theorem Run.forall_of_mem_piecesFrom {P : Token → Prop} {text : String} {ts p : Run}
    (h : ∀ t ∈ ts.tokens, P t) (hp : p ∈ piecesFrom text 0 ts) : ∀ t ∈ p.tokens, P t := by
  have hsublist := (List.sublist_flatten_of_mem hp).trans (flatten_piecesFrom_sublist text 0 ts)
  exact fun t ht => h t ((hsublist.map Placed.toToken).subset ht)

/-- The capture that an entry of a `use` clause denotes. -/
def Shape.captureOf? (entry : Run) : Option Capture := do
  let name ← (← entry.getLast?).variableName?
  return { name, byRef := entry.startsWith "&" }

theorem Shape.captures_eq (ts : Run) :
    Shape.captures ts = (Run.piecesFrom "," 0 ts).filterMap captureOf? :=
  Print.Renders.filterMap_splitTopLevel rfl ts

/-- A capture as it is declared. -/
def Capture.text (c : Capture) : String := (if c.byRef then "&$" else "$") ++ c.name

namespace Print.Renders

variable {q : Qualifier} {previous next : Option Token} {t : Token}

theorem params {inner : Run} (hbalanced : balanced 0 inner.tokens = true)
    (hstands : ∀ t ∈ inner.tokens, Stands t []) (hcode : ∀ t ∈ inner.tokens, t.isDoc = false)
    (hquiet : ∀ p ∈ Param.listOfRun inner, CallsNothing q p.declaration) (ht : t.isClose = true)
    (hstarts : Starts previous) :
    Renders q previous (inner.tokens ++ [t]) next (Param.list (Param.listOfRun inner) ++ ")")
      (Param.list (Param.listOfRun inner) ++ ")") := by
  rw [Param.listOfRun_eq] at hquiet ⊢
  rw [Run.tokens_eq_intercalate_piecesFrom "," 0 inner]
  refine elements (Run.piecesFrom_ne_nil 0 inner) (fun p hp => ?_) (fun piece hpiece p hp => ?_) ht
    hstarts
  · exact ⟨Run.balanced_of_mem_piecesFrom hbalanced hp, Run.forall_of_mem_piecesFrom hstands hp⟩
  · intro previous next t j hstarts hstop
    exact param hp (Run.balanced_of_mem_piecesFrom hbalanced hpiece)
      (Run.forall_of_mem_piecesFrom hstands hpiece) (Run.forall_of_mem_piecesFrom hcode hpiece)
      (hquiet p (List.mem_filterMap.2 ⟨piece, hpiece, hp⟩)) hstarts hstop

/-- A variable, whatever is left out in front of it. -/
theorem variable_after {v : Token} {name : String} {mid : List Token} {k : Nat}
    (hv : v.variableName? = some name) (hstands : ∀ t ∈ mid ++ [v], Stands t [])
    (hbalanced : balanced k (mid ++ [v]) = true) :
    Renders q previous (mid ++ [v]) next ("$" ++ name) ("$" ++ name) := by
  obtain ⟨hmid, hlast⟩ := List.forall_mem_append.1 hstands
  obtain ⟨hkind, htext⟩ := (List.forall_mem_singleton.1 hlast).text_of_variableName? hv
  rw [← htext]
  rw [balanced_concat (by rw [hkind]; decide)] at hbalanced
  refine skip (fun hweight => ⟨?_, fun _ y vs hcovers => ?_⟩) (plain (by simp [callsLibrary, hkind]))
  · have := closes_eq_of_balanced hmid hweight hbalanced
    omega
  · cases mid with
    | nil => rfl
    | cons u mid =>
      rw [htext, String.toList_append] at hcovers
      have hpos := hcovers.weight_pos_of_head (by decide)
      have := (weight_texts_cons hweight).1
      omega

theorem capture {entry : Run} {c : Capture} (hc : Shape.captureOf? entry = some c)
    (hbalanced : balanced 0 entry.tokens = true) (hstands : ∀ t ∈ entry.tokens, Stands t []) {j : String}
    (hstop : IsStop t j) :
    Renders q previous (entry.tokens ++ [t]) next (c.text ++ j) (c.text ++ j) := by
  simp only [Shape.captureOf?, Option.bind_eq_bind, Option.pure_def, Option.bind_eq_some_iff] at hc
  obtain ⟨v, hlast, name, hv, heq⟩ := hc
  cases heq
  refine append ?_ (stop hstop)
  obtain ⟨front, rfl⟩ := List.getLast?_eq_some_iff.1 hlast
  rw [Run.tokens_append] at hbalanced hstands ⊢
  unfold Capture.text
  cases href : Run.startsWith "&" (front ++ [v]) with
  | false => exact variable_after hv hstands hbalanced
  | true =>
    cases front with
    | nil =>
      have hkind := (hstands v.toToken (by simp [Run.tokens])).text_of_variableName? hv
      simp [Run.startsWith, isSymbol, hkind.1] at href
    | cons sign mid =>
      have hsign : sign.isSymbol "&" = true := by simpa [Run.startsWith] using href
      rw [Run.tokens_cons, List.cons_append] at hbalanced hstands ⊢
      have htext : "&$" ++ name = "&" ++ ("$" ++ name) := by
        rw [← String.append_assoc]
        rfl
      rw [if_pos rfl, htext]
      exact cons (symbol hsign (by decide))
        (variable_after hv (List.forall_mem_cons.1 hstands).2 (balanced_cons hbalanced).2)

theorem captures {inner : Run} (hbalanced : balanced 0 inner.tokens = true)
    (hstands : ∀ t ∈ inner.tokens, Stands t []) (ht : t.isClose = true) (hstarts : Starts previous) :
    Renders q previous (inner.tokens ++ [t]) next
      (", ".intercalate ((Shape.captures inner).map Capture.text) ++ ")")
      (", ".intercalate ((Shape.captures inner).map Capture.text) ++ ")") := by
  rw [Shape.captures_eq, Run.tokens_eq_intercalate_piecesFrom "," 0 inner]
  refine elements (Run.piecesFrom_ne_nil 0 inner) (fun p hp => ?_) (fun entry hentry c hc => ?_) ht
    hstarts
  · exact ⟨Run.balanced_of_mem_piecesFrom hbalanced hp, Run.forall_of_mem_piecesFrom hstands hp⟩
  · intro previous next t j _ hstop
    exact capture hc (Run.balanced_of_mem_piecesFrom hbalanced hentry)
      (Run.forall_of_mem_piecesFrom hstands hentry) hstop

end Print.Renders

end CurryGen

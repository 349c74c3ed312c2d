import CurryGen.Proofs.Token.Cover
import CurryGen.Proofs.Token.Word
import CurryGen.Tree.Param

/-!
# Parameter lists read again

A declared parameter says no more than the tokens it was read from. So where a declaration is read as
its parameter again, nothing in it is a comment, and a list of such declarations is read as the list
of its parameters.

* `Param.ReadsBack`: the declaration of a parameter, between parentheses, is read as the parameter.
* `Param.solid_listOfRun_le`: declarations have no more characters than the tokens they come from.
* `Param.exists_tokensOfList`: a list of declarations has the tokens of its parameters.
* `Param.TokensOfList.read_code_iff`: when the tokens give the parameters without documentation
  comments.
-/

namespace CurryGen

open Scan Token

/-! ## Normalised text -/

namespace Token

theorem countP_spacedAfter {p : Char → Bool} (hp : p ' ' = false) (previous : Token) (unary : Bool)
    (ts : List Token) :
    ((spacedAfter previous unary ts).flatMap String.toList).countP p =
      (ts.flatMap (·.text.toList)).countP p := by
  induction ts generalizing previous unary with
  | nil => rfl
  | cons t ts ih =>
    have hspace : " ".toList.countP p = 0 := List.countP_eq_zero.2 (by simp [hp])
    rw [spacedAfter]
    split <;> simp only [List.flatMap_cons, List.countP_append, ih, hspace, Nat.zero_add]

/-- Normalised text has the characters of its tokens, but for spaces. -/
theorem countP_format {p : Char → Bool} (hp : p ' ' = false) (ts : List Token) :
    (format ts).toList.countP p =
      ((ts.filter (!·.isDoc)).flatMap (·.text.toList)).countP p := by
  rw [format, String.toList_join]
  cases ts.filter (!·.isDoc) with
  | nil => rfl
  | cons t ts =>
    rw [spaced, List.flatMap_cons, List.flatMap_cons, List.countP_append, List.countP_append,
      countP_spacedAfter hp]

theorem solid_format (ts : List Token) :
    Text.solid (format ts).toList = solid (ts.filter (!·.isDoc)) :=
  countP_format (by decide) ts

theorem solid_le_of_sublist {ts us : List Token} (h : ts.Sublist us) : solid ts ≤ solid us := by
  induction h with
  | slnil => exact Nat.le_refl _
  | cons t _ ih =>
    rw [solid_cons]
    omega
  | cons_cons t _ ih =>
    rw [solid_cons, solid_cons]
    omega

end Token

namespace Param

/-! ## Declarations -/

theorem solid_symbol {s : String} {t : Token} (h : t.isSymbol s = true) :
    Text.solid t.text.toList = Text.solid s.toList := by
  simp only [isSymbol, Bool.and_eq_true, beq_iff_eq] at h
  rw [h.2]

theorem isSymbol_unique {s s' : String} {t : Token} (h : t.isSymbol s = true) (hs : s ≠ s') :
    t.isSymbol s' = false := by
  simp only [isSymbol, Bool.and_eq_true, beq_iff_eq] at h
  simp [isSymbol, h.2, hs]

/-- What stands before a variable gives its type, `&` and `...` at most. -/
theorem solid_before_le (before : Run) :
    Token.solid (Run.tokens (before.filter (isTypePart ·.toToken))) +
        (if before.any (·.isSymbol "&") then 1 else 0) +
        (if before.any (·.isSymbol "...") then 3 else 0) ≤ Token.solid before.tokens := by
  induction before with
  | nil => exact Nat.le_refl _
  | cons t before ih =>
    have htokens (ts : Run) : Token.solid (Run.tokens (t :: ts)) =
        Text.solid t.text.toList + Token.solid (Run.tokens ts) := Token.solid_cons _ _
    rw [htokens, List.any_cons, List.any_cons]
    by_cases href : t.isSymbol "&" = true
    · have hsolid : Text.solid t.text.toList = 1 := solid_symbol href
      have htype : isTypePart t.toToken = false := by simp [isTypePart, href]
      rw [List.filter_cons_of_neg (by simp [htype]), href, isSymbol_unique href (by decide), hsolid,
        Bool.true_or, Bool.false_or, if_pos rfl]
      split at ih <;> omega
    · by_cases hdots : t.isSymbol "..." = true
      · have hsolid : Text.solid t.text.toList = 3 := solid_symbol hdots
        have htype : isTypePart t.toToken = false := by simp [isTypePart, hdots]
        rw [List.filter_cons_of_neg (by simp [htype]), hdots, isSymbol_unique hdots (by decide),
          hsolid, Bool.true_or, Bool.false_or, if_pos rfl]
        generalize (if (before.any fun t => t.isSymbol "&") = true then 1 else 0) = refs at ih ⊢
        split at ih <;> omega
      · rw [Bool.not_eq_true] at href hdots
        rw [href, hdots, Bool.false_or, Bool.false_or, List.filter_cons]
        split
        · rw [htokens]
          omega
        · omega

theorem solid_declaration (p : Param) :
    Text.solid p.declaration.toList =
      p.type.elim 0 (Text.solid ·.toList) + (if p.byRef then 1 else 0) +
        (if p.variadic then 3 else 0) + (Text.solid p.name.toList + 1) +
        p.default.elim 0 (Text.solid ·.toList + 1) := by
  have hspace : Text.solid " ".toList = 0 := by decide
  have href : Text.solid "&".toList = 1 := by decide
  have hdots : Text.solid "...".toList = 3 := by decide
  have hdollar : Text.solid "$".toList = 1 := by decide
  have hequals : Text.solid " = ".toList = 1 := by decide
  have hempty : Text.solid "".toList = 0 := by decide
  obtain ⟨name, type, default, byRef, variadic⟩ := p
  unfold declaration
  simp only [String.toList_append, Text.solid_append]
  cases type <;> cases default <;> cases byRef <;> cases variadic <;>
    simp only [Option.elim, if_true, Bool.false_eq_true, if_false, String.toList_append,
      Text.solid_append, hspace, href, hdots, hdollar, hequals, hempty] <;>
    omega

theorem solid_type (type : Run) :
    (if type.isEmpty then none else some (Run.join type)).elim 0 (Text.solid ·.toList) =
      Token.solid type.tokens := by
  cases type with
  | nil => rfl
  | cons t ts =>
    have hjoin : Run.join (t :: ts) = String.join ((t :: ts).map (·.text)) := rfl
    simp only [List.isEmpty_cons, Bool.false_eq_true, if_false, Option.elim_some, hjoin,
      String.toList_join, Token.solid, Run.tokens, List.flatMap_map]

theorem solid_name {v : Token} (hvariable : v.isVariable = true) (hv : Stands v []) :
    Text.solid (v.variableName?.getD "").toList + 1 = Text.solid v.text.toList := by
  obtain ⟨c, w, htext, hfound⟩ := hv
  have hkind : v.kind = .variable := eq_of_beq hvariable
  rw [Token.variableName?, if_pos hkind, Option.getD_some, htext, List.drop_one, List.tail_cons,
    String.toList_ofList, Text.solid_cons (isSpace_of_found hfound)]

/-- A parameter is declared with no more characters than the tokens that it was read from. -/
theorem solid_declaration_le {ts : Run} {p : Param} (h : ofRun? ts = some p)
    (hts : ∀ t ∈ ts.tokens, Stands t []) :
    Text.solid p.declaration.toList ≤ Token.solid ts.tokens := by
  obtain ⟨v, after, hsplit, hvariable⟩ := exists_variable_of_ofRun? h
  simp only [ofRun?, hsplit] at h
  cases h
  have hv : v ∈ ts.dropWhile (!·.isVariable) := by
    rw [hsplit]
    exact List.mem_cons_self
  have hstands : Stands v.toToken [] :=
    hts _ (List.mem_map_of_mem ((List.dropWhile_suffix _).subset hv))
  have hparts : Token.solid ts.tokens =
      Token.solid (Run.tokens (ts.takeWhile (!·.isVariable))) +
        (Text.solid v.text.toList + Token.solid (Run.tokens after)) := by
    rw [← Token.solid_cons, ← Token.solid_append, ← Run.tokens_cons, ← hsplit,
      ← Run.tokens_append, List.takeWhile_append_dropWhile]
  have hbefore := solid_before_le (ts.takeWhile (!·.isVariable))
  rw [hparts, solid_declaration, solid_type, solid_name hvariable hstands, Nat.add_assoc]
  refine Nat.add_le_add hbefore (Nat.add_le_add_left ?_ _)
  cases after with
  | nil => exact Nat.zero_le _
  | cons t value =>
    cases hsign : t.isSymbol "=" with
    | false => simp [hsign]
    | true =>
      have hsolid : Text.solid t.text.toList = 1 := solid_symbol hsign
      have hvalue := Token.solid_le_of_sublist
        (List.filter_sublist (p := (!·.isDoc)) (l := Run.tokens value))
      simp only [hsign, if_true, Option.elim_some, Run.format, solid_format]
      rw [Run.tokens_cons, Token.solid_cons, hsolid, Nat.add_comm]
      exact Nat.add_le_add_left hvalue 1

/-! ## Lists -/

theorem listOfRun_eq (ts : Run) :
    listOfRun ts = (Run.piecesFrom "," 0 ts).filterMap ofRun? := by
  unfold listOfRun Run.splitTopLevel Run.dropEmptyLast
  split
  · rename_i hlast
    obtain ⟨pieces, hpieces⟩ := List.getLast?_eq_some_iff.1 hlast
    rw [hpieces, List.dropLast_concat, List.filterMap_append]
    simp [ofRun?]
  · rfl

/-- A comma after balanced tokens begins another parameter. -/
theorem listOfRun_append {a : Run} (h : Token.balanced 0 a.tokens = true) {t : Placed}
    (ht : t.toToken = .symbol ",") (b : Run) :
    listOfRun (a ++ t :: b) = listOfRun a ++ listOfRun b := by
  have hcut : t.cutsAt "," 0 = true := by
    rw [ht]
    decide
  rw [listOfRun_eq, listOfRun_eq, listOfRun_eq, Run.piecesFrom_append h hcut, List.filterMap_append]

/-- The number of characters in declarations that are no blanks. -/
def solid (ps : List Param) : Nat := Text.solid (ps.flatMap (·.declaration.toList))

theorem solid_append (ps qs : List Param) : solid (ps ++ qs) = solid ps + solid qs := by
  simp [solid, Text.solid_append]

theorem solid_filterMap_le (pieces : List Run)
    (h : ∀ t ∈ Run.tokens pieces.flatten, Stands t []) :
    solid (pieces.filterMap ofRun?) ≤ Token.solid (Run.tokens pieces.flatten) := by
  induction pieces with
  | nil => exact Nat.le_refl _
  | cons piece pieces ih =>
    rw [List.flatten_cons, Run.tokens_append] at h ⊢
    obtain ⟨hpiece, hpieces⟩ := List.forall_mem_append.1 h
    have hrest := ih hpieces
    rw [Token.solid_append]
    cases hp : ofRun? piece with
    | none =>
      rw [List.filterMap_cons_none hp]
      omega
    | some p =>
      have hle := solid_declaration_le hp hpiece
      rw [List.filterMap_cons_some hp, solid, List.flatMap_cons, Text.solid_append]
      exact Nat.add_le_add hle hrest

/-- Declarations have no more characters than the tokens that their parameters were read from. -/
theorem solid_listOfRun_le {ts : Run} (hts : ∀ t ∈ ts.tokens, Stands t []) :
    solid (listOfRun ts) ≤ Token.solid ts.tokens := by
  have hpieces := (Run.flatten_piecesFrom_sublist "," 0 ts).map Placed.toToken
  rw [listOfRun_eq]
  exact Nat.le_trans (solid_filterMap_le _ fun t ht => hts t (hpieces.subset ht))
    (Token.solid_le_of_sublist hpieces)

/-! ## Places do not matter -/

/-- A token as if it stood at the start of its source. -/
def unplaced (t : Placed) : Placed := ⟨t.toToken, 0⟩

theorem map_unplaced_of_tokens {a b : Run} (h : a.tokens = b.tokens) :
    a.map unplaced = b.map unplaced := by
  have hmap (ts : Run) : ts.map unplaced = ts.tokens.map (⟨·, 0⟩) := by
    rw [Run.tokens, List.map_map]
    rfl
  rw [hmap, hmap, h]

theorem ofRun?_map_unplaced (ts : Run) : ofRun? (ts.map unplaced) = ofRun? ts := by
  have hbefore : (ts.map unplaced).takeWhile (!·.isVariable) =
      (ts.takeWhile (!·.isVariable)).map unplaced := List.takeWhile_map ..
  have hrest : (ts.map unplaced).dropWhile (!·.isVariable) =
      (ts.dropWhile (!·.isVariable)).map unplaced := List.dropWhile_map ..
  unfold ofRun?
  rw [hbefore, hrest]
  cases ts.dropWhile (!·.isVariable) with
  | nil => rfl
  | cons v after =>
    have htype (before : Run) : (before.map unplaced).filter (isTypePart ·.toToken) =
        (before.filter (isTypePart ·.toToken)).map unplaced := List.filter_map
    have hjoin (type : Run) : Run.join (type.map unplaced) = Run.join type := by
      unfold Run.join
      rw [List.map_map]
      rfl
    have hformat (value : Run) : Run.format (value.map unplaced) = Run.format value := by
      unfold Run.format Run.tokens
      rw [List.map_map]
      rfl
    simp only [List.map_cons, htype, hjoin, List.isEmpty_map, List.any_map]
    cases after with
    | nil => rfl
    | cons t value => simp only [List.map_cons, hformat]; rfl

theorem piecesFrom_map_unplaced (separator : String) (depth : Nat) (ts : Run) :
    Run.piecesFrom separator depth (ts.map unplaced) =
      (Run.piecesFrom separator depth ts).map (·.map unplaced) := by
  induction ts generalizing depth with
  | nil => rfl
  | cons t ts ih =>
    have hpush (pieces : List Run) : Run.push (unplaced t) (pieces.map (·.map unplaced)) =
        (Run.push t pieces).map (·.map unplaced) := by
      cases pieces <;> rfl
    rw [List.map_cons, Run.piecesFrom, Run.piecesFrom, ih, ih, hpush]
    have hcut : (unplaced t).cutsAt separator depth = t.cutsAt separator depth := rfl
    rw [hcut]
    split <;> rfl

/-- Which parameters a run declares depends on its tokens alone. -/
theorem listOfRun_congr {a b : Run} (h : a.tokens = b.tokens) : listOfRun a = listOfRun b := by
  have hmap (ts : Run) : listOfRun (ts.map unplaced) = listOfRun ts := by
    rw [listOfRun_eq, listOfRun_eq, piecesFrom_map_unplaced, List.filterMap_map]
    exact congrArg (List.filterMap · _) (funext ofRun?_map_unplaced)
  rw [← hmap a, ← hmap b, map_unplaced_of_tokens h]

/-! ## Reading declarations again -/

/-- The declaration of a parameter, alone between parentheses, is read as the parameter. -/
def ReadsBack (p : Param) : Prop :=
  ∃ ts inner, scan ("(" ++ p.declaration ++ ")").toList = .ok ts ∧
    Run.group? ts = some (inner, []) ∧ listOfRun inner = [p]

/-- A declaration that is read again holds no comments. -/
theorem ReadsBack.exists_covers {p : Param} (h : p.ReadsBack) :
    ∃ inner : Run, Covers p.declaration.toList inner.tokens ∧
      Token.balanced 0 inner.tokens = true ∧ listOfRun inner = [p] := by
  obtain ⟨ts, inner, hscan, hgroup, hlist⟩ := h
  obtain ⟨opening, close, rfl, -, hclose, hbalanced⟩ := Run.group?_eq_some_iff.1 hgroup
  have hscans : Scans (('(' :: p.declaration.toList) ++ [')'])
      (opening.toToken :: (inner.tokens ++ [close.toToken])) := by
    have hall := scans_iff.2 ⟨_, hscan, rfl⟩
    rw [String.toList_append, String.toList_append, Run.tokens_cons, Run.tokens_append] at hall
    exact hall
  have hopening : found '(' ([] ++ (p.declaration.toList ++ [')'])) = .token .symbol 0 := by
    obtain ⟨c, w, htext, hfound⟩ :=
      stands_solitary (s := "(") (by decide) (p.declaration.toList ++ [')'])
    obtain ⟨rfl, rfl⟩ : '(' = c ∧ [] = w := List.cons.inj htext
    exact hfound
  obtain ⟨us, heq, hrest⟩ := Scans.of_found hopening hscans
  obtain rfl := (List.cons.inj heq).2
  have hstands : ∀ t ∈ inner.tokens, Stands t [] := fun t ht =>
    hrest.stands t (List.mem_append_left _ ht)
  have hlast : Text.solid close.text.toList = 1 := by
    obtain ⟨c, w, htext, hfound⟩ := hrest.stands close.toToken (by simp)
    have hlength := length_of_isClose hclose
    rw [htext] at hlength ⊢
    obtain rfl : w = [] := List.eq_nil_of_length_eq_zero (by simpa using hlength)
    exact Text.solid_cons (isSpace_of_found hfound) []
  have hle : Text.solid p.declaration.toList ≤ Token.solid inner.tokens := by
    have hle := solid_listOfRun_le hstands
    rw [hlist] at hle
    simpa [solid] using hle
  have hcovers := hrest.covers (by
    have hparen : Text.solid [')'] = 1 := by decide
    rw [Text.solid_append, Token.solid_append, Token.solid_cons, hparen, hlast]
    exact Nat.add_le_add hle (Nat.le_refl _))
  exact ⟨inner, hcovers.of_concat (by decide) hclose, hbalanced, hlist⟩

/-- The declaration of a parameter is balanced, and read as the parameter. -/
def ParsesBack (p : Param) : Prop :=
  ∃ ts, scan p.declaration.toList = .ok ts ∧ Token.balanced 0 ts.tokens = true ∧ listOfRun ts = [p]

theorem readsBack_iff {p : Param} : p.ReadsBack ↔ p.ParsesBack := by
  constructor
  · intro h
    obtain ⟨inner, hcovers, hbalanced, hlist⟩ := h.exists_covers
    obtain ⟨ts, hscan, hts⟩ := scans_iff.1 hcovers.scans
    exact ⟨ts, hscan, by rw [hts]; exact hbalanced, by rw [listOfRun_congr hts, hlist]⟩
  · rintro ⟨us, hscan, hbalanced, hlist⟩
    have hscans : Scans p.declaration.toList us.tokens := scans_iff.2 ⟨us, hscan, rfl⟩
    have hle : Text.solid p.declaration.toList ≤ Token.solid us.tokens := by
      have hle := solid_listOfRun_le hscans.stands
      rw [hlist] at hle
      simpa [solid] using hle
    have hcovers := hscans.covers hle
    have hclose : Scans ")".toList [.symbol ")"] := scans_solitary (by decide)
    have hall := scans_symbol (s := "(") (by decide)
      (hcovers.append_separator (d := ')') (by decide) hclose)
    obtain ⟨ts, hts, htokens⟩ := scans_iff.1 hall
    obtain ⟨i, ts, rfl, h₁⟩ := Run.exists_cons_of_tokens htokens
    obtain ⟨inner, ts, rfl, hinner, h₂⟩ := Run.exists_append_of_tokens h₁
    obtain ⟨j, ts, rfl, h₃⟩ := Run.exists_cons_of_tokens h₂
    obtain rfl := List.map_eq_nil_iff.1 h₃
    have hgroup : Run.group? (⟨.symbol "(", i⟩ :: (inner ++ [⟨.symbol ")", j⟩])) =
        some (inner, []) :=
      Run.group?_eq_some_iff.2 ⟨_, _, rfl, rfl, rfl, by rwa [hinner]⟩
    refine ⟨_, inner, ?_, hgroup, by rw [listOfRun_congr hinner, hlist]⟩
    rw [String.toList_append, String.toList_append, List.append_assoc]
    exact hts

/-- A declaration without documentation comments. -/
def Undocumented (p : Param) : Prop :=
  ∀ ts, scan p.declaration.toList = .ok ts → ∀ t ∈ ts, t.isDoc = false

/-- Tokens of a list of declarations. -/
structure TokensOfList (ps : List Param) (inner : Run) : Prop where
  balanced : Token.balanced 0 inner.tokens = true
  read : listOfRun inner = ps
  scans : ∀ d y us, separates d = true → Scans (d :: y) us →
    Scans ((list ps).toList ++ d :: y) (inner.tokens ++ us)
  stands : ∀ t ∈ inner.tokens, Stands t []
  /-- Documentation comments are part of the declarations. -/
  code : solid (listOfRun inner.code) + Token.solid (inner.tokens.filter (·.isDoc)) ≤ solid ps
  undocumented : (∀ t ∈ inner.tokens, t.isDoc = false) ↔ ∀ p ∈ ps, p.Undocumented

theorem TokensOfList.nil : TokensOfList [] [] where
  balanced := rfl
  read := rfl
  scans _ _ _ _ h := h
  stands := by simp [Run.tokens]
  code := Nat.le_refl _
  undocumented := by simp [Run.tokens]

theorem solid_filter_add (ts : List Token) :
    Token.solid (ts.filter (!·.isDoc)) + Token.solid (ts.filter (·.isDoc)) = Token.solid ts := by
  induction ts with
  | nil => rfl
  | cons t ts ih =>
    rw [Token.solid_cons]
    cases hdoc : t.isDoc <;> simp [hdoc, Token.solid_cons] <;> omega

theorem ReadsBack.exists_tokens {p : Param} (h : p.ReadsBack) : ∃ inner, TokensOfList [p] inner := by
  obtain ⟨inner, hcovers, hbalanced, hlist⟩ := h.exists_covers
  have hdecl : (list [p]).toList = p.declaration.toList := by
    rw [list, String.toList_intercalate]
    simp
  have hstands := hcovers.scans.stands
  refine ⟨inner, hbalanced, hlist, fun d y us hd hy => ?_, hstands, ?_, ?_⟩
  · rw [hdecl]
    exact hcovers.append_separator hd hy
  · have hcode : ∀ t ∈ inner.code.tokens, Stands t [] := by
      rw [Run.tokens_code]
      exact fun t ht => hstands t (List.mem_filter.1 ht).1
    have hle := solid_listOfRun_le hcode
    have hsum := solid_filter_add inner.tokens
    have hsolid : solid [p] = Token.solid inner.tokens := by
      rw [← hcovers.solid_eq]
      simp [solid]
    rw [Run.tokens_code] at hle
    rw [hsolid]
    omega
  · constructor
    · intro hdocs q hq ts hts t ht
      obtain rfl := List.mem_singleton.1 hq
      have heq : ts.tokens = inner.tokens := (scans_iff.2 ⟨ts, hts, rfl⟩).unique hcovers.scans
      exact hdocs _ (heq ▸ List.mem_map_of_mem ht)
    · intro hdocs t ht
      obtain ⟨ts, hts, heq⟩ := scans_iff.1 hcovers.scans
      rw [← heq] at ht
      obtain ⟨u, hu, rfl⟩ := List.mem_map.1 ht
      exact hdocs p (List.mem_singleton.2 rfl) ts hts u hu

theorem TokensOfList.cons {p q : Param} {ps : List Param} {a b : Run} (ha : TokensOfList [p] a)
    (hb : TokensOfList (q :: ps) b) :
    TokensOfList (p :: q :: ps) (a ++ ⟨.symbol ",", 0⟩ :: b) where
  balanced := by
    have happend := Token.balanced_append ha.balanced 0 (b := .symbol "," :: b.tokens)
    rw [Run.tokens_append, Run.tokens_cons]
    exact happend.trans hb.balanced
  read := by rw [listOfRun_append ha.balanced rfl, ha.read, hb.read]; rfl
  scans d y us hd hy := by
    have hrest := hb.scans d y us hd hy
    have hstands :=
      stands_solitary (s := ",") (by decide) (' ' :: ((list (q :: ps)).toList ++ d :: y))
    have hcomma := hstands.scans (.space (by decide) hrest)
    have hall := ha.scans ',' _ _ (by decide) hcomma
    have htext : (list (p :: q :: ps)).toList =
        (list [p]).toList ++ ',' :: ' ' :: (list (q :: ps)).toList := by
      simp only [list, String.toList_intercalate, List.map_cons, List.map_nil,
        List.intercalate_cons_cons, List.intercalate_singleton]
      simp
    rw [htext, Run.tokens_append, Run.tokens_cons]
    simpa using hall
  stands := by
    rw [Run.tokens_append, Run.tokens_cons]
    intro t ht
    rcases List.mem_append.1 ht with ht | ht
    · exact ha.stands t ht
    · rcases List.mem_cons.1 ht with rfl | ht
      · exact stands_solitary (by decide) []
      · exact hb.stands t ht
  code := by
    have hcode : Run.code (a ++ ⟨.symbol ",", 0⟩ :: b) = a.code ++ ⟨.symbol ",", 0⟩ :: b.code := by
      rw [Run.code_append, Run.code_cons (by decide)]
    have hbalanced : Token.balanced 0 a.code.tokens = true := by
      rw [Run.tokens_code, Token.balanced_filter_code]
      exact ha.balanced
    have hdocs : (Run.tokens (a ++ ⟨.symbol ",", 0⟩ :: b)).filter (·.isDoc) =
        a.tokens.filter (·.isDoc) ++ b.tokens.filter (·.isDoc) := by
      rw [Run.tokens_append, Run.tokens_cons, List.filter_append,
        List.filter_cons_of_neg (by decide)]
    have hps : solid (p :: q :: ps) = solid [p] + solid (q :: ps) := solid_append [p] (q :: ps)
    have := ha.code
    have := hb.code
    rw [hcode, listOfRun_append hbalanced rfl, solid_append, hdocs, Token.solid_append, hps]
    omega
  undocumented := by
    rw [List.forall_mem_cons, ← hb.undocumented, Run.tokens_append, Run.tokens_cons]
    have hp := ha.undocumented
    rw [List.forall_mem_singleton] at hp
    rw [← hp, List.forall_mem_append, List.forall_mem_cons]
    exact and_congr_right fun _ => and_iff_right rfl

/-- A list of declarations that are read again has the tokens of its parameters. -/
theorem exists_tokensOfList {ps : List Param} (h : ∀ p ∈ ps, p.ReadsBack) :
    ∃ inner, TokensOfList ps inner := by
  induction ps with
  | nil => exact ⟨[], .nil⟩
  | cons p ps ih =>
    obtain ⟨hp, hps⟩ := List.forall_mem_cons.1 h
    obtain ⟨a, ha⟩ := hp.exists_tokens
    cases ps with
    | nil => exact ⟨a, ha⟩
    | cons q ps =>
      obtain ⟨b, hb⟩ := ih hps
      exact ⟨_, ha.cons hb⟩

/-- Without documentation comments the tokens give the parameters exactly when the declarations have
none. -/
theorem TokensOfList.read_code_iff {ps : List Param} {inner : Run} (h : TokensOfList ps inner) :
    listOfRun inner.code = ps ↔ ∀ p ∈ ps, p.Undocumented := by
  rw [← h.undocumented]
  constructor
  · intro hread t ht
    have hle := h.code
    rw [hread] at hle
    rw [← Bool.not_eq_true]
    intro hdoc
    obtain ⟨c, w, htext, hfound⟩ := h.stands t ht
    have hmem : t ∈ inner.tokens.filter (·.isDoc) := List.mem_filter.2 ⟨ht, hdoc⟩
    have hpos : 0 < Text.solid t.text.toList := by
      rw [htext, Text.solid_cons (isSpace_of_found hfound)]
      omega
    obtain ⟨before, after, hsplit⟩ := List.append_of_mem hmem
    rw [hsplit, Token.solid_append, Token.solid_cons] at hle
    omega
  · intro hdocs
    have hcode : inner.code = inner := List.filter_eq_self.2 fun t ht => by
      simp [hdocs t.toToken (List.mem_map_of_mem ht)]
    rw [hcode, h.read]

end Param

end CurryGen

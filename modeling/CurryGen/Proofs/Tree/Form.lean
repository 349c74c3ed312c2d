import CurryGen.Proofs.Token.Separator
import CurryGen.Tree.Param

/-!
# Parameters as they are written

A parameter is written as modifiers, a type, marks, a variable and a default. `Param.Form` is that
form, and this module says which parameter is read from the tokens of a form.

* `Form.tokens`, `Form.declared`: the tokens of a form, with and without its modifiers.
* `Form.param`, `Form.ofRun?_eq`: the parameter that is read from them. An `&` of an intersection is
  taken for the mark of a reference, and the names around it are joined.
* `listOfRun_forms`: a list of forms is read as the list of their parameters.
-/

namespace CurryGen

open Token Run

namespace Param

/-! ## Forms -/

/-- A name in a type. Modifiers are reserved, so none is the name of a type. -/
structure TypeName extends Token where
  kind_eq : kind = .name
  not_modifier : toToken.isKeywordIn modifiers = false

/-- Names combined to a type. -/
inductive TypeNames where
  | name (n : TypeName)
  | union (a b : TypeNames)
  | intersection (a b : TypeNames)
  | group (a : TypeNames)

namespace TypeNames

def tokens : TypeNames → List Token
  | name n => [n.toToken]
  | union a b => a.tokens ++ .symbol "|" :: b.tokens
  | intersection a b => a.tokens ++ .symbol "&" :: b.tokens
  | group a => .symbol "(" :: (a.tokens ++ [.symbol ")"])

def hasIntersection : TypeNames → Bool
  | name _ => false
  | union a b => a.hasIntersection || b.hasIntersection
  | intersection _ _ => true
  | group a => a.hasIntersection

end TypeNames

/-- A type as it is written. -/
structure TypeForm where
  nullable : Bool
  names : TypeNames

def TypeForm.tokens (type : TypeForm) : List Token :=
  (if type.nullable then [.symbol "?"] else []) ++ type.names.tokens

/-- A parameter as it is written. -/
structure Form where
  modifiers : List Token
  type : Option TypeForm
  byRef : Bool
  variadic : Bool
  /-- The variable, with its `$`. -/
  name : Token
  default : Option (List Token)
  isKeywordIn_modifiers : ∀ t ∈ modifiers, t.isKeywordIn Param.modifiers = true
  isVariable_name : name.isVariable = true
  piece_default : ∀ value ∈ default, Piece "," value
  not_isDoc_default : ∀ value ∈ default, ∀ t ∈ value, t.isDoc = false

namespace Form

def typeTokens (f : Form) : List Token := f.type.elim [] (·.tokens)

def markTokens (f : Form) : List Token :=
  (if f.byRef then [.symbol "&"] else []) ++ (if f.variadic then [.symbol "..."] else [])

/-- What stands before the variable, less the modifiers. -/
def front (f : Form) : List Token := f.typeTokens ++ f.markTokens

def defaultTokens (f : Form) : List Token := f.default.elim [] (.symbol "=" :: ·)

/-- The tokens of a parameter less its modifiers. -/
def declared (f : Form) : List Token := f.front ++ f.name :: f.defaultTokens

def tokens (f : Form) : List Token := f.modifiers ++ f.declared

def hasIntersection (f : Form) : Bool := f.type.any (·.names.hasIntersection)

/-- The parameter that is read from the form: an `&` in its type counts as a mark of its own. -/
def param (f : Form) : Param where
  name := f.name.variableName?.getD ""
  type := f.type.map fun type =>
    String.join ((type.tokens.filter (!·.isSymbol "&")).map (·.text))
  default := f.default.map Token.format
  byRef := f.byRef || f.hasIntersection
  variadic := f.variadic

end Form

/-! ## Reading -/

/-- The default that the tokens after a variable give. -/
def defaultOf : List Token → Option String
  | t :: value => if t.isSymbol "=" then some (Token.format value) else none
  | [] => none

theorem ofRun?_of_tokens {ts : Run} {before after : List Token} {v : Token}
    (hbefore : ∀ t ∈ before, t.isVariable = false) (hv : v.isVariable = true)
    (h : ts.tokens = before ++ v :: after) :
    ofRun? ts = some
      { name := v.variableName?.getD ""
        type := if (before.filter isTypePart).isEmpty then none
          else some (String.join ((before.filter isTypePart).map (·.text)))
        default := defaultOf after
        byRef := before.any (·.isSymbol "&")
        variadic := before.any (·.isSymbol "...") } := by
  obtain ⟨front, rest, rfl, rfl, hrest⟩ := exists_append_of_tokens h
  obtain ⟨i, rest, rfl, rfl⟩ := exists_cons_of_tokens hrest
  have hfront : ∀ t ∈ front, (!t.isVariable) = true := fun t ht => by
    rw [hbefore _ (List.mem_map_of_mem ht)]
    rfl
  have hstop : (!(⟨v, i⟩ : Placed).isVariable) = false := by
    rw [hv]
    rfl
  have htake : (front ++ ⟨v, i⟩ :: rest).takeWhile (!·.isVariable) = front := by
    rw [List.takeWhile_append_of_pos hfront, List.takeWhile_cons_of_neg (by simp [hstop]),
      List.append_nil]
  have hdrop : (front ++ ⟨v, i⟩ :: rest).dropWhile (!·.isVariable) = ⟨v, i⟩ :: rest := by
    rw [List.dropWhile_append_of_pos hfront, List.dropWhile_cons_of_neg (by simp [hstop])]
  have hfilter : (Run.tokens front).filter isTypePart =
      Run.tokens (front.filter (isTypePart ·.toToken)) := List.filter_map
  have hjoin (type : Run) : Run.join type = String.join (type.tokens.map (·.text)) := by
    rw [Run.join, Run.tokens, List.map_map]
    rfl
  have hany (s : String) : (Run.tokens front).any (·.isSymbol s) = front.any (·.isSymbol s) :=
    List.any_map
  have hempty (type : Run) : type.tokens.isEmpty = type.isEmpty := List.isEmpty_map
  unfold ofRun?
  rw [htake, hdrop]
  simp only [hfilter, hjoin, hany, hempty]
  cases rest <;> rfl

theorem TypeName.isSymbol (n : TypeName) (s : String) : n.toToken.isSymbol s = false := by
  simp [Token.isSymbol, n.kind_eq]

namespace TypeNames

theorem forall_tokens {P : Token → Prop} (hname : ∀ n : TypeName, P n.toToken)
    (hsymbol : ∀ s ∈ ["?", "|", "&", "(", ")"], P (.symbol s)) (names : TypeNames) :
    ∀ t ∈ names.tokens, P t := by
  induction names with
  | name n => exact List.forall_mem_singleton.2 (hname n)
  | union a b iha ihb =>
    exact List.forall_mem_append.2 ⟨iha, List.forall_mem_cons.2 ⟨hsymbol _ (by decide), ihb⟩⟩
  | intersection a b iha ihb =>
    exact List.forall_mem_append.2 ⟨iha, List.forall_mem_cons.2 ⟨hsymbol _ (by decide), ihb⟩⟩
  | group a ih =>
    refine List.forall_mem_cons.2 ⟨hsymbol _ (by decide), List.forall_mem_append.2 ⟨ih, ?_⟩⟩
    exact List.forall_mem_singleton.2 (hsymbol _ (by decide))

theorem any_isSymbol_ampersand (names : TypeNames) :
    names.tokens.any (·.isSymbol "&") = names.hasIntersection := by
  have hsymbols : (Token.symbol "|").isSymbol "&" = false ∧ (Token.symbol "&").isSymbol "&" = true ∧
      (Token.symbol "(").isSymbol "&" = false ∧ (Token.symbol ")").isSymbol "&" = false := by decide
  induction names with
  | name n => simp [tokens, hasIntersection, n.isSymbol]
  | union a b iha ihb => simp [tokens, hasIntersection, iha, ihb, hsymbols]
  | intersection a b iha ihb => simp [tokens, hasIntersection, hsymbols]
  | group a ih => simp [tokens, hasIntersection, ih, hsymbols]

/-- Names begin with a name or a bracket. -/
theorem exists_cons (names : TypeNames) :
    ∃ t ts, names.tokens = t :: ts ∧ (t.kind = .name ∨ t = .symbol "(") := by
  induction names with
  | name n => exact ⟨n.toToken, [], rfl, .inl n.kind_eq⟩
  | union a b iha ihb =>
    obtain ⟨t, ts, htokens, ht⟩ := iha
    exact ⟨t, ts ++ .symbol "|" :: b.tokens, by rw [tokens, htokens, List.cons_append], ht⟩
  | intersection a b iha ihb =>
    obtain ⟨t, ts, htokens, ht⟩ := iha
    exact ⟨t, ts ++ .symbol "&" :: b.tokens, by rw [tokens, htokens, List.cons_append], ht⟩
  | group a ih => exact ⟨.symbol "(", _, rfl, .inr rfl⟩

end TypeNames

theorem isSymbol_of_begins {t : Token} (h : t.kind = .name ∨ t = .symbol "(") :
    t.isSymbol "&" = false := by
  rcases h with h | rfl
  · simp [isSymbol, h]
  · decide

theorem TypeForm.forall_tokens {P : Token → Prop} (hname : ∀ n : TypeName, P n.toToken)
    (hsymbol : ∀ s ∈ ["?", "|", "&", "(", ")"], P (.symbol s)) (type : TypeForm) :
    ∀ t ∈ type.tokens, P t := by
  refine List.forall_mem_append.2 ⟨?_, type.names.forall_tokens hname hsymbol⟩
  split
  · exact List.forall_mem_singleton.2 (hsymbol _ (by decide))
  · exact List.forall_mem_nil _

theorem TypeForm.filter_ne_nil (type : TypeForm) :
    type.tokens.filter (!·.isSymbol "&") ≠ [] := by
  obtain ⟨t, ts, htokens, ht⟩ := type.names.exists_cons
  have hmem : t ∈ type.tokens.filter (!·.isSymbol "&") := by
    rw [List.mem_filter, TypeForm.tokens, htokens, isSymbol_of_begins ht]
    exact ⟨List.mem_append_right _ List.mem_cons_self, rfl⟩
  exact List.ne_nil_of_mem hmem

namespace Form

variable (f : Form)

theorem forall_typeTokens {P : Token → Prop} (hname : ∀ n : TypeName, P n.toToken)
    (hsymbol : ∀ s ∈ ["?", "|", "&", "(", ")"], P (.symbol s)) : ∀ t ∈ f.typeTokens, P t := by
  unfold typeTokens
  cases f.type with
  | none => exact List.forall_mem_nil _
  | some type => exact type.forall_tokens hname hsymbol

theorem any_typeTokens_ampersand : f.typeTokens.any (·.isSymbol "&") = f.hasIntersection := by
  unfold typeTokens hasIntersection
  cases f.type with
  | none => rfl
  | some type =>
    have hquestion : (Token.symbol "?").isSymbol "&" = false := by decide
    obtain ⟨nullable, names⟩ := type
    cases nullable <;>
      simp [TypeForm.tokens, names.any_isSymbol_ampersand, hquestion]

theorem isTypePart_typeTokens :
    ∀ t ∈ f.typeTokens, isTypePart t = !t.isSymbol "&" := by
  refine f.forall_typeTokens (fun n => ?_) (by decide)
  simp [isTypePart, n.isSymbol, n.not_modifier]

theorem filter_isTypePart :
    (f.modifiers ++ f.front).filter isTypePart = f.typeTokens.filter (!·.isSymbol "&") := by
  have hmodifiers : f.modifiers.filter isTypePart = [] := by
    refine List.filter_eq_nil_iff.2 fun t ht => ?_
    simp [isTypePart, f.isKeywordIn_modifiers t ht]
  have hmarks : f.markTokens.filter isTypePart = [] := by
    unfold markTokens
    cases f.byRef <;> cases f.variadic <;> rfl
  rw [front, List.filter_append, List.filter_append, hmodifiers, hmarks, List.nil_append,
    List.append_nil]
  exact List.filter_congr f.isTypePart_typeTokens

theorem kind_of_mem_modifiers {t : Token} (h : t ∈ f.modifiers) : t.kind = .name := by
  have hkeyword := f.isKeywordIn_modifiers t h
  simp only [isKeywordIn, Bool.and_eq_true, beq_iff_eq] at hkeyword
  exact hkeyword.1

theorem isVariable_front : ∀ t ∈ f.modifiers ++ f.front, t.isVariable = false := by
  refine List.forall_mem_append.2 ⟨fun t ht => ?_, List.forall_mem_append.2 ⟨?_, ?_⟩⟩
  · simp [isVariable, f.kind_of_mem_modifiers ht]
  · refine f.forall_typeTokens (fun n => ?_) (by decide)
    simp [isVariable, n.kind_eq]
  · unfold markTokens
    cases f.byRef <;> cases f.variadic <;> decide

theorem any_modifiers (s : String) : f.modifiers.any (·.isSymbol s) = false := by
  refine List.any_eq_false.2 fun t ht => ?_
  simp [isSymbol, f.kind_of_mem_modifiers ht]

theorem any_front_ampersand :
    (f.modifiers ++ f.front).any (·.isSymbol "&") = (f.byRef || f.hasIntersection) := by
  have hmarks : f.markTokens.any (·.isSymbol "&") = f.byRef := by
    unfold markTokens
    cases f.byRef <;> cases f.variadic <;> decide
  rw [front, List.any_append, List.any_append, f.any_modifiers, f.any_typeTokens_ampersand, hmarks,
    Bool.false_or, Bool.or_comm]

theorem any_front_dots : (f.modifiers ++ f.front).any (·.isSymbol "...") = f.variadic := by
  have htype : f.typeTokens.any (·.isSymbol "...") = false := by
    refine List.any_eq_false.2 (f.forall_typeTokens (fun n => ?_) (by decide))
    simp [n.isSymbol]
  have hmarks : f.markTokens.any (·.isSymbol "...") = f.variadic := by
    unfold markTokens
    cases f.byRef <;> cases f.variadic <;> decide
  rw [front, List.any_append, List.any_append, f.any_modifiers, htype, hmarks, Bool.false_or,
    Bool.false_or]

/-- A parameter is read from the tokens of its form. -/
theorem ofRun?_eq {ts : Run} (h : ts.tokens = f.tokens) : ofRun? ts = some f.param := by
  have htype : (if (f.typeTokens.filter (!·.isSymbol "&")).isEmpty then none
      else some (String.join ((f.typeTokens.filter (!·.isSymbol "&")).map (·.text)))) =
      f.param.type := by
    unfold typeTokens param
    cases f.type with
    | none => rfl
    | some type => exact if_neg (by simp [type.filter_ne_nil])
  have hdefault : defaultOf f.defaultTokens = f.param.default := by
    unfold defaultTokens param
    cases f.default <;> rfl
  rw [tokens, declared, ← List.append_assoc] at h
  rw [ofRun?_of_tokens f.isVariable_front f.isVariable_name h, f.filter_isTypePart,
    f.any_front_ampersand, f.any_front_dots, htype, hdefault]
  rfl

end Form

/-! ## Lists -/

theorem piece_of_name {t : Token} (h : t.kind = .name) : Piece "," [t] := by
  refine .singleton ?_ ?_ ?_ <;> simp [isOpen, isClose, isSymbol, h]

theorem TypeNames.piece_tokens (names : TypeNames) : Piece "," names.tokens := by
  induction names with
  | name n => exact piece_of_name n.kind_eq
  | union a b iha ihb => exact iha.append (.cons (.singleton rfl rfl (by decide)) ihb)
  | intersection a b iha ihb => exact iha.append (.cons (.singleton rfl rfl (by decide)) ihb)
  | group a ih => exact .group rfl rfl ih.balanced

/-- A parameter has no comma outside brackets. -/
theorem Form.piece_tokens (f : Form) : Piece "," f.tokens := by
  have hmodifiers : Piece "," f.modifiers :=
    .of_forall fun t ht => piece_of_name (f.kind_of_mem_modifiers ht)
  have htype : Piece "," f.typeTokens := by
    unfold typeTokens
    cases f.type with
    | none => exact ⟨rfl, rfl⟩
    | some type =>
      obtain ⟨nullable, names⟩ := type
      cases nullable with
      | false => exact names.piece_tokens
      | true => exact .cons (.singleton rfl rfl (by decide)) names.piece_tokens
  have hmarks : Piece "," f.markTokens := by
    unfold markTokens
    cases f.byRef <;> cases f.variadic <;> exact ⟨by decide, by decide⟩
  have hname : Piece "," [f.name] := by
    have hkind : f.name.kind = .variable := eq_of_beq f.isVariable_name
    refine .singleton ?_ ?_ ?_ <;> simp [isOpen, isClose, isSymbol, hkind]
  have hdefault : Piece "," f.defaultTokens := by
    have hpiece := f.piece_default
    unfold defaultTokens
    cases hvalue : f.default with
    | none => exact ⟨rfl, rfl⟩
    | some value => exact .cons (.singleton rfl rfl (by decide)) (hpiece value hvalue)
  exact hmodifiers.append ((htype.append hmarks).append (.cons hname hdefault))

/-- The tokens of a parameter list, with or without a comma at the end. -/
inductive ListTokens (forms : List Form) : List Token → Prop
  | plain : ListTokens forms ([.symbol ","].intercalate (forms.map Form.tokens))
  | trailing : forms ≠ [] →
      ListTokens forms ([.symbol ","].intercalate (forms.map Form.tokens) ++ [.symbol ","])

theorem ListTokens.map_tokens_splitTopLevel {forms : List Form} {ts : Run}
    (h : ListTokens forms ts.tokens) :
    (ts.splitTopLevel ",").map Run.tokens = forms.map Form.tokens := by
  have hpieces : ∀ p ∈ forms.map Form.tokens, Piece "," p :=
    List.forall_mem_map.2 fun f _ => f.piece_tokens
  generalize htokens : ts.tokens = tokens at h
  cases h with
  | plain =>
    refine Run.map_tokens_splitTopLevel rfl hpieces (fun hlast => ?_) htokens
    obtain ⟨f, -, hnil⟩ := List.mem_map.1 (List.mem_of_getLast? hlast)
    simp [Form.tokens, Form.declared] at hnil
  | trailing hne =>
    exact Run.map_tokens_splitTopLevel_trailing rfl hpieces (by simpa using hne) htokens

theorem filterMap_ofRun? {pieces : List Run} {forms : List Form}
    (h : pieces.map Run.tokens = forms.map Form.tokens) :
    pieces.filterMap ofRun? = forms.map Form.param := by
  induction forms generalizing pieces with
  | nil =>
    obtain rfl := List.map_eq_nil_iff.1 h
    rfl
  | cons f forms ih =>
    obtain ⟨piece, rest, rfl, hpiece, hrest⟩ := List.map_eq_cons_iff.1 h
    rw [List.filterMap_cons_some (f.ofRun?_eq hpiece), ih hrest, List.map_cons]

theorem listOfRun_forms {forms : List Form} {ts : Run} (h : ListTokens forms ts.tokens) :
    listOfRun ts = forms.map Form.param :=
  filterMap_ofRun? h.map_tokens_splitTopLevel

end Param

end CurryGen

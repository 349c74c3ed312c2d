import CurryGen.Proofs.Token.Spacing
import CurryGen.Proofs.Token.Written
import CurryGen.Proofs.Tree.Form
import CurryGen.Proofs.Tree.Param

/-!
# Declarations of written parameters

The declaration of a parameter is put together from the type, the marks, the name and the default
that were read. It has the tokens that the parameter was written with, as long as the type holds no
`&` and no two tokens of the default glue.

* `TypeNames.leads`, `Form.leads_marks`, `Form.scans_name_iff`: the parts of a declaration, from the
  type to the default.
* `Form.not_scans_declaration`: what goes wrong with an intersection.
* `listOfRun_declarations_iff`: the declarations of a parameter list.
-/

namespace CurryGen

open Scan Token Run

namespace Param

/-! ## Types read again -/

/-- Characters that a longer symbol than a mark of a type or a parameter goes on with. -/
def continuations : List Char := ['|', '=', '?', ':', '-', '>', '&']

theorem head?_drop_of_isPrefix : ∀ s ∈ ["?", "|", "&", "..."], ∀ s' ∈ marks ++ symbols,
    s.toList <+: s'.toList → (s'.toList.drop s.toList.length).head?.all continuations.contains := by
  decide

/-- A mark stands before whatever goes on with none of these. -/
theorem stands_mark {s : String} (hs : s ∈ ["?", "|", "&", "..."]) (h : Stands (.symbol s) [])
    {c : Char} (hc : c ∉ continuations) (y : List Char) : Stands (.symbol s) (c :: y) := by
  rw [h.append_symbol_iff rfl]
  intro s' hs' hfront
  by_contra hlong
  obtain ⟨hlonger, hrest, -⟩ := drop_isPrefix hfront (Nat.lt_of_not_le hlong)
  have hhead := head?_drop_of_isPrefix s hs s' hs' hlonger
  cases hdrop : s'.toList.drop s.toList.length with
  | nil =>
    rw [List.drop_eq_nil_iff] at hdrop
    exact hlong hdrop
  | cons d ds =>
    have hd : d = c := by
      have hfront' : d :: ds <+: c :: y := hdrop ▸ hrest
      exact (List.cons_prefix_cons.1 hfront').1
    rw [hdrop, hd] at hhead
    exact hc (List.contains_iff_mem.1 hhead)

theorem head_of_begins {t : Token} (h : Stands t []) (ht : t.kind = .name ∨ t = .symbol "(") :
    ∃ c w, t.text.toList = c :: w ∧ c ∉ continuations := by
  rcases ht with ht | rfl
  · obtain ⟨c, w, htext, hbegins⟩ := h.begins
    rw [ht] at hbegins
    have hnone : (continuations.any fun d => isNameStart d || d == '\\') = false := by decide
    refine ⟨c, w, htext, fun hmem => ?_⟩
    have hc := List.any_eq_false.1 hnone c hmem
    simp only [Bool.or_eq_true, beq_iff_eq] at hc
    exact hc hbegins
  · exact ⟨'(', [], rfl, by decide⟩

theorem TypeNames.head_texts {names : TypeNames} (h : ∀ t ∈ names.tokens, Stands t []) :
    ∃ c w, texts names.tokens = c :: w ∧ c ∉ continuations := by
  obtain ⟨t, ts, htokens, ht⟩ := names.exists_cons
  rw [htokens] at h
  obtain ⟨c, w, htext, hc⟩ := head_of_begins (h t List.mem_cons_self) ht
  exact ⟨c, w ++ texts ts, by rw [htokens, texts, List.flatMap_cons, htext]; rfl, hc⟩

/-- Names without `&` have their tokens before what may follow them. -/
theorem TypeNames.leads {names : TypeNames} (hnone : names.hasIntersection = false)
    (h : ∀ t ∈ names.tokens, Stands t []) {d : Char} (hd : isStop d = true) (y : List Char) :
    Leads (texts names.tokens) names.tokens (d :: y) := by
  induction names generalizing d y with
  | name n =>
    have hn := (h n.toToken List.mem_cons_self).append_stop (by simp [n.kind_eq]) hd y
    simpa [tokens, texts] using Leads.of_stands hn
  | union a b iha ihb =>
    obtain ⟨ha, hrest⟩ := List.forall_mem_append.1 h
    obtain ⟨hbar, hb⟩ := List.forall_mem_cons.1 hrest
    rw [hasIntersection, Bool.or_eq_false_iff] at hnone
    obtain ⟨c, w, htexts, hc⟩ := head_texts hb
    have hstands : Stands (.symbol "|") (texts b.tokens ++ d :: y) := by
      rw [htexts]
      exact stands_mark (by decide) hbar hc _
    have hright := (Leads.of_stands hstands).append (ihb hnone.2 hb hd y)
    have hall := (iha hnone.1 ha (d := '|') (by decide) (texts b.tokens ++ d :: y)).append hright
    simpa [tokens, texts] using hall
  | intersection a b => cases hnone
  | group a ih =>
    obtain ⟨-, hrest⟩ := List.forall_mem_cons.1 h
    obtain ⟨ha, -⟩ := List.forall_mem_append.1 hrest
    have hopen := Leads.of_stands (stands_solitary (s := "(") (by decide)
      ((texts a.tokens ++ ")".toList) ++ d :: y))
    have hclose := Leads.of_stands (stands_solitary (s := ")") (by decide) (d :: y))
    have hall := hopen.append ((ih hnone ha (d := ')') (by decide) (d :: y)).append hclose)
    simp only [tokens, texts, List.flatMap_cons, List.flatMap_append, List.flatMap_nil,
      List.append_nil]
    exact hall

namespace Form

variable {f : Form} (hstands : ∀ t ∈ f.declared, Stands t [])
include hstands

/-- A type without `&` is written with its tokens. -/
theorem leads_type (hnone : f.hasIntersection = false) (y : List Char) :
    Leads (f.param.type.elim [] fun type => type.toList ++ [' ']) f.typeTokens y := by
  have htokens : ∀ t ∈ f.typeTokens, Stands t [] := fun t ht =>
    hstands t (List.mem_append_left _ (List.mem_append_left _ ht))
  have hany := f.any_typeTokens_ampersand
  rw [hnone, List.any_eq_false] at hany
  unfold typeTokens at htokens hany ⊢
  unfold hasIntersection at hnone
  unfold param
  cases htype : f.type with
  | none => exact Leads.nil y
  | some type =>
    obtain ⟨nullable, names⟩ := type
    rw [htype] at htokens hany hnone
    have hfilter : (TypeForm.mk nullable names).tokens.filter (!·.isSymbol "&") =
        (TypeForm.mk nullable names).tokens :=
      List.filter_eq_self.2 fun t ht => by simpa using hany t ht
    simp only [Option.map_some, Option.elim_some, hfilter, String.toList_join, List.flatMap_map]
    refine Leads.space ?_
    cases nullable with
    | false => exact names.leads hnone htokens (by decide) y
    | true =>
      obtain ⟨hquestion, hnames⟩ := List.forall_mem_cons.1 htokens
      obtain ⟨c, w, htexts, hc⟩ := names.head_texts hnames
      have hmark : Stands (.symbol "?") (texts names.tokens ++ ' ' :: y) := by
        rw [htexts]
        exact stands_mark (by decide) hquestion hc _
      exact (Leads.of_stands hmark).append (names.leads hnone hnames (by decide) y)

/-- The marks are written with their tokens before a variable. -/
theorem leads_marks (hnone : f.hasIntersection = false) (y : List Char) :
    Leads ((if f.param.byRef then "&" else "") ++ (if f.param.variadic then "..." else "")).toList
      f.markTokens ('$' :: y) := by
  have htokens : ∀ t ∈ f.markTokens, Stands t [] := fun t ht =>
    hstands t (List.mem_append_left _ (List.mem_append_right _ ht))
  have hbyRef : f.param.byRef = f.byRef := by
    rw [param, hnone, Bool.or_false]
  have hvariadic : f.param.variadic = f.variadic := rfl
  rw [hbyRef, hvariadic]
  unfold markTokens at htokens ⊢
  cases href : f.byRef <;> cases hdots : f.variadic <;> rw [href, hdots] at htokens
  · exact Leads.nil _
  · exact Leads.of_stands (stands_mark (by decide) (htokens _ (by simp)) (by decide) y)
  · exact Leads.of_stands (stands_mark (by decide) (htokens _ (by simp)) (by decide) y)
  · have hfirst : Stands (.symbol "&") ('.' :: '.' :: '.' :: '$' :: y) :=
      stands_mark (by decide) (htokens _ (by simp)) (by decide) _
    have hlast : Stands (.symbol "...") ('$' :: y) :=
      stands_mark (by decide) (htokens _ (by simp)) (by decide) y
    exact (Leads.of_stands hfirst).append (Leads.of_stands hlast)

theorem toList_name : f.name.text.toList = '$' :: f.param.name.toList := by
  have hname : Stands f.name [] := hstands _ (by simp [declared])
  have hkind : f.name.kind = .variable := eq_of_beq f.isVariable_name
  obtain ⟨c, w, htext, hbegins⟩ := hname.begins
  rw [hkind] at hbegins
  obtain rfl : c = '$' := hbegins
  rw [param, Token.variableName?, if_pos hkind, Option.getD_some, htext, String.toList_ofList]
  rfl

/-- The name and the default are written with their tokens unless something glues in the default. -/
theorem scans_name_iff : Scans (f.name.text.toList ++
      f.param.default.elim [] fun value => " = ".toList ++ value.toList)
      (f.name :: f.defaultTokens) ↔ hasGlue (f.default.getD []) = false := by
  have hname : Stands f.name [] := hstands _ (by simp [declared])
  have hdocs := f.not_isDoc_default
  unfold declared defaultTokens at hstands
  unfold param defaultTokens
  cases hdefault : f.default with
  | none => exact iff_of_true (hname.scans .nil) rfl
  | some value =>
    rw [hdefault] at hstands hdocs
    have hvalue : ∀ t ∈ value, Stands t [] := fun t ht => hstands t (by simp [ht])
    have hequals : Stands (.symbol "=") [] := hstands _ (by simp)
    have hcode : value.filter (!·.isDoc) = value :=
      List.filter_eq_self.2 fun t ht => by simp [hdocs value rfl t ht]
    have hformat := scans_format_iff hvalue
    rw [hcode] at hformat
    exact (scans_spaced_iff hname _ _).trans ((scans_spaced_iff hequals _ _).trans hformat)

theorem toList_declaration : f.param.declaration.toList =
    (f.param.type.elim [] fun type => type.toList ++ [' ']) ++
      (((if f.param.byRef then "&" else "") ++ (if f.param.variadic then "..." else "")).toList ++
        (f.name.text.toList ++
          f.param.default.elim [] fun value => " = ".toList ++ value.toList)) := by
  rw [toList_name hstands]
  unfold declaration
  cases f.param.type <;> cases f.param.default <;>
    simp [String.toList_append, List.append_assoc]

theorem scans_declaration_of_not (hnone : f.hasIntersection = false) :
    Scans f.param.declaration.toList f.declared ↔ hasGlue (f.default.getD []) = false := by
  have hrest := toList_name hstands
  rw [toList_declaration hstands, declared, front, List.append_assoc, leads_type hstands hnone]
  rw [← scans_name_iff hstands, hrest]
  exact leads_marks hstands hnone _ _

end Form

/-! ## Intersections -/

/-- The first `&` of a type, and the names that follow it. -/
theorem TypeNames.exists_ampersand {names : TypeNames} (h : names.hasIntersection = true) :
    ∃ front after rest, names.tokens = front ++ .symbol "&" :: (TypeNames.tokens after ++ rest) ∧
      ∀ t ∈ front, t.isSymbol "&" = false := by
  induction names with
  | name n => cases h
  | union a b iha ihb =>
    cases ha : a.hasIntersection with
    | true =>
      obtain ⟨front, after, rest, htokens, hfront⟩ := iha ha
      exact ⟨front, after, rest ++ .symbol "|" :: b.tokens, by simp [tokens, htokens], hfront⟩
    | false =>
      rw [hasIntersection, ha, Bool.false_or] at h
      obtain ⟨front, after, rest, htokens, hfront⟩ := ihb h
      rw [← a.any_isSymbol_ampersand, List.any_eq_false] at ha
      refine ⟨a.tokens ++ .symbol "|" :: front, after, rest, by simp [tokens, htokens], ?_⟩
      refine List.forall_mem_append.2 ⟨fun t ht => by simpa using ha t ht, ?_⟩
      exact List.forall_mem_cons.2 ⟨by decide, hfront⟩
  | intersection a b iha ihb =>
    cases ha : a.hasIntersection with
    | true =>
      obtain ⟨front, after, rest, htokens, hfront⟩ := iha ha
      exact ⟨front, after, rest ++ .symbol "&" :: b.tokens, by simp [tokens, htokens], hfront⟩
    | false =>
      rw [← a.any_isSymbol_ampersand, List.any_eq_false] at ha
      exact ⟨a.tokens, b, [], by simp [tokens], fun t ht => by simpa using ha t ht⟩
  | group a ih =>
    obtain ⟨front, after, rest, htokens, hfront⟩ := ih h
    refine ⟨.symbol "(" :: front, after, rest ++ [.symbol ")"], by simp [tokens, htokens], ?_⟩
    exact List.forall_mem_cons.2 ⟨by decide, hfront⟩

namespace Form

variable {f : Form}

theorem exists_ampersand (h : f.hasIntersection = true) :
    ∃ front after rest, f.typeTokens = front ++ .symbol "&" :: (TypeNames.tokens after ++ rest) ∧
      ∀ t ∈ front, t.isSymbol "&" = false := by
  unfold hasIntersection at h
  unfold typeTokens
  cases htype : f.type with
  | none =>
    rw [htype] at h
    cases h
  | some type =>
    rw [htype] at h
    obtain ⟨nullable, names⟩ := type
    obtain ⟨front, after, rest, htokens, hfront⟩ := TypeNames.exists_ampersand h
    cases nullable with
    | false => exact ⟨front, after, rest, htokens, hfront⟩
    | true =>
      refine ⟨.symbol "?" :: front, after, rest, ?_, List.forall_mem_cons.2 ⟨by decide, hfront⟩⟩
      exact congrArg (.symbol "?" :: ·) htokens

/-- A form without its modifiers. -/
def unmodified (f : Form) : Form := { f with modifiers := [], isKeywordIn_modifiers := by simp }

theorem solid_declaration_le (hstands : ∀ t ∈ f.declared, Stands t []) :
    Text.solid f.param.declaration.toList ≤ Token.solid f.declared := by
  have htokens : Run.tokens (f.declared.map (⟨·, 0⟩)) = f.unmodified.tokens := by
    rw [Run.tokens, List.map_map]
    exact List.map_id _
  have hparam : ofRun? (f.declared.map (⟨·, 0⟩)) = some f.param := f.unmodified.ofRun?_eq htokens
  have hle := Param.solid_declaration_le hparam
  rw [htokens] at hle
  exact hle hstands

/-- A declaration begins with the type less its `&`. -/
theorem texts_isPrefix_declaration :
    texts (f.typeTokens.filter (!·.isSymbol "&")) <+: f.param.declaration.toList := by
  unfold typeTokens param declaration
  cases f.type with
  | none => exact List.nil_prefix
  | some type =>
    simp only [Option.map_some, Option.elim_some, String.toList_append, String.toList_join,
      List.flatMap_map, List.append_assoc]
    exact List.prefix_append _ _

/-- An intersection is not read again: in the declaration its `&` stands after the whole type. -/
theorem not_scans_declaration (hstands : ∀ t ∈ f.declared, Stands t [])
    (h : f.hasIntersection = true) : ¬Scans f.param.declaration.toList f.declared := by
  intro hscans
  have hsame := (hscans.covers (solid_declaration_le hstands)).filter_eq
  obtain ⟨front, after, rest, htokens, hfront⟩ := exists_ampersand h
  obtain ⟨t, ts, hafter, ht⟩ := after.exists_cons
  rw [hafter] at htokens
  have hmem : t ∈ f.declared := by simp [declared, Form.front, htokens]
  obtain ⟨c, w, htext, hc⟩ := head_of_begins (hstands t hmem) ht
  have hsolid : isSpace c = false := by
    obtain ⟨c', w', htext', hfound⟩ := hstands t hmem
    obtain ⟨rfl, -⟩ := List.cons.inj (htext.symm.trans htext')
    exact isSpace_of_found hfound
  -- both texts begin with what stands before the `&`, and then differ
  have hwritten : ∃ z, f.param.declaration.toList = texts front ++ c :: z := by
    have hfilter : f.typeTokens.filter (!·.isSymbol "&") =
        front ++ t :: (ts ++ rest).filter (!·.isSymbol "&") := by
      have hkeep : front.filter (!·.isSymbol "&") = front :=
        List.filter_eq_self.2 fun u hu => by simp [hfront u hu]
      rw [htokens, List.filter_append, hkeep, List.filter_cons_of_neg (by decide),
        List.cons_append, List.filter_cons_of_pos (by simp [isSymbol_of_begins ht])]
    obtain ⟨z, hz⟩ := f.texts_isPrefix_declaration
    refine ⟨w ++ texts ((ts ++ rest).filter (!·.isSymbol "&")) ++ z, ?_⟩
    rw [← hz, hfilter]
    simp [texts, htext]
  have hsource : ∃ z, texts f.declared = texts front ++ '&' :: z := by
    have hdeclared : f.declared = front ++ .symbol "&" ::
        (t :: ts ++ rest ++ (f.markTokens ++ f.name :: f.defaultTokens)) := by
      simp [declared, Form.front, htokens]
    refine ⟨texts (t :: ts ++ rest ++ (f.markTokens ++ f.name :: f.defaultTokens)), ?_⟩
    rw [hdeclared, texts, List.flatMap_append, List.flatMap_cons]
    rfl
  obtain ⟨z, hz⟩ := hwritten
  obtain ⟨z', hz'⟩ := hsource
  change _ = (texts f.declared).filter (!isSpace ·) at hsame
  rw [hz, hz', List.filter_append, List.filter_append, List.filter_cons_of_pos (by simp [hsolid]),
    List.filter_cons_of_pos (by decide)] at hsame
  obtain ⟨rfl, -⟩ := List.cons.inj (List.append_cancel_left hsame)
  exact hc (by decide)

theorem scans_declaration_iff (hstands : ∀ t ∈ f.declared, Stands t []) :
    Scans f.param.declaration.toList f.declared ↔
      f.hasIntersection = false ∧ hasGlue (f.default.getD []) = false := by
  cases h : f.hasIntersection with
  | false => simpa using scans_declaration_of_not hstands h
  | true => simpa using not_scans_declaration hstands h

end Form

/-! ## Lists -/

/-- **Every parameter is read, and its declaration has its tokens** less the modifiers, unless its
type holds an `&` or two tokens of its default glue. -/
theorem listOfRun_declarations_iff {source : List Char} {all ts : Run} (hscan : scan source = .ok all)
    (hts : ts <:+: all) {forms : List Form} (hforms : ListTokens forms ts.tokens) :
    List.Forall₂ (fun f p => f.name.text = "$" ++ p.name ∧ p.variadic = f.variadic ∧
        ((∃ us, scan p.declaration.toList = .ok us ∧ us.tokens = f.declared) ↔
          f.hasIntersection = false ∧ hasGlue (f.default.getD []) = false))
      forms (listOfRun ts) := by
  have hstands : ∀ t ∈ ts.tokens, Stands t [] := by
    have hall : Scans source all.tokens := scans_iff.2 ⟨all, hscan, rfl⟩
    exact fun t ht => hall.stands t ((hts.map Placed.toToken).subset ht)
  have hsplit := hforms.map_tokens_splitTopLevel
  rw [listOfRun_forms hforms, List.forall₂_map_right_iff, List.forall₂_same]
  intro f hf
  have hdeclared : ∀ t ∈ f.declared, Stands t [] := by
    intro t ht
    have hmem : f.tokens ∈ (ts.splitTopLevel ",").map Run.tokens := by
      rw [hsplit]
      exact List.mem_map_of_mem hf
    obtain ⟨piece, hpiece, htokens⟩ := List.mem_map.1 hmem
    refine hstands t (mem_of_mem_splitTopLevel hpiece ?_)
    rw [htokens]
    exact List.mem_append_right _ ht
  refine ⟨?_, rfl, ?_⟩
  · rw [← String.toList_inj, Form.toList_name hdeclared]
    simp
  · rw [← scans_iff]
    exact f.scans_declaration_iff hdeclared

/-- `private ?int $n = [1, 2]` -/
def Form.limit : Form where
  modifiers := [⟨.name, "private"⟩]
  type := some ⟨true, .name ⟨⟨.name, "int"⟩, rfl, by decide +kernel⟩⟩
  byRef := false
  variadic := false
  name := ⟨.variable, "$n"⟩
  default := some [.symbol "[", ⟨.int, "1"⟩, .symbol ",", ⟨.int, "2"⟩, .symbol "]"]
  isKeywordIn_modifiers := by decide +kernel
  isVariable_name := rfl
  piece_default := by
    rintro value ⟨⟩
    exact ⟨by decide, by decide⟩
  not_isDoc_default := by
    rintro value ⟨⟩
    decide

/-- `A&B $x` -/
def Form.both : Form where
  modifiers := []
  type := some ⟨false, .intersection (.name ⟨⟨.name, "A"⟩, rfl, by decide +kernel⟩)
    (.name ⟨⟨.name, "B"⟩, rfl, by decide +kernel⟩)⟩
  byRef := false
  variadic := false
  name := ⟨.variable, "$x"⟩
  default := none
  isKeywordIn_modifiers := by simp
  isVariable_name := rfl
  piece_default := by simp
  not_isDoc_default := by simp

/-- The declaration of `A&B $x` is `AB &$x`. -/
theorem listOfRun_declarations_iff_intersection :
    ∃ ts p q, scan "private ?int $n = [1, 2], A&B $x".toList = .ok ts ∧
      ListTokens [Form.limit, Form.both] ts.tokens ∧ listOfRun ts = [p, q] ∧
      p.declaration = "?int $n = [1, 2]" ∧ q.declaration = "AB &$x" ∧
      (∃ us, scan p.declaration.toList = .ok us ∧ us.tokens = Form.limit.declared) ∧
      ¬∃ us, scan q.declaration.toList = .ok us ∧ us.tokens = Form.both.declared := by
  have hscan : scan "private ?int $n = [1, 2], A&B $x".toList =
      .ok [⟨⟨.name, "private"⟩, 0⟩, ⟨.symbol "?", 8⟩, ⟨⟨.name, "int"⟩, 9⟩, ⟨⟨.variable, "$n"⟩, 13⟩,
        ⟨.symbol "=", 16⟩, ⟨.symbol "[", 18⟩, ⟨⟨.int, "1"⟩, 19⟩, ⟨.symbol ",", 20⟩,
        ⟨⟨.int, "2"⟩, 22⟩, ⟨.symbol "]", 23⟩, ⟨.symbol ",", 24⟩, ⟨⟨.name, "A"⟩, 26⟩,
        ⟨.symbol "&", 27⟩, ⟨⟨.name, "B"⟩, 28⟩, ⟨⟨.variable, "$x"⟩, 30⟩] := by cbv
  obtain ⟨ts, hscan, htokens⟩ : ∃ ts, scan "private ?int $n = [1, 2], A&B $x".toList = .ok ts ∧
      ts.tokens = [.symbol ","].intercalate ([Form.limit, Form.both].map Form.tokens) :=
    ⟨_, hscan, rfl⟩
  have hforms : ListTokens [Form.limit, Form.both] ts.tokens := htokens ▸ .plain
  have hlist := listOfRun_forms hforms
  have hall := listOfRun_declarations_iff hscan List.infix_rfl hforms
  rw [hlist] at hall
  obtain ⟨hlimit, hrest⟩ := List.forall₂_cons.1 hall
  obtain ⟨hboth, -⟩ := List.forall₂_cons.1 hrest
  refine ⟨ts, _, _, hscan, hforms, hlist, by cbv, by cbv, hlimit.2.2.2 ⟨rfl, by decide⟩, ?_⟩
  exact fun h => absurd (hboth.2.2.1 h).1 (by decide)

end Param

end CurryGen

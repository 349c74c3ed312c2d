import CurryGen.Proofs.Token.Separator
import CurryGen.Proofs.Tree.Source
import Mathlib

/-!
# Classes as they are written

A class is written as a head and members between braces. A member is a method, or something that
declares none: a property, a constant or a trait use. `ClassForm` is that form, and this module says
which class is read from the tokens of a form.

* `MethodForm`, `OtherForm`: the two sorts of members.
* `ClassForm.run`, `ClassForm.decl`: the tokens of a form and the class that is read from them.
* `memberLength_append`: where a member ends that is no method.
* `readMembers_forms`: members are read one by one, and nothing of one is left for the next.
* `readFile_form`: a class is read from its form, and what follows it is read as if it stood alone.
-/

namespace CurryGen

namespace Token

variable {s : String} {t : Token}

/-- A token that is no bracket. -/
def isPlain (t : Token) : Bool := !t.isOpen && !t.isClose

theorem isPlain_of_ne_symbol (h : t.kind ≠ .symbol) : t.isPlain = true := by
  simp [isPlain, isOpen, isClose, h]

theorem isPlain_of_isDoc (h : t.isDoc = true) : t.isPlain = true :=
  isPlain_of_ne_symbol (by simp [eq_of_beq h])

theorem isPlain_of_isKeywordIn {words : List String} (h : t.isKeywordIn words = true) :
    t.isPlain = true :=
  isPlain_of_ne_symbol (by simp [kind_of_isKeywordIn h])

theorem balanced_cons_of_isPlain (h : t.isPlain = true) (ts : List Token) :
    balanced 0 (t :: ts) = balanced 0 ts := by
  obtain ⟨hopen, hclose⟩ := Bool.and_eq_true_iff.1 h
  rw [Bool.not_eq_true'] at hopen hclose
  rw [balanced, depthAfter, hopen, hclose]
  rfl

/-- Tokens that are no brackets are balanced. -/
theorem balanced_of_forall {ts : List Token} (h : ∀ t ∈ ts, t.isPlain = true) :
    balanced 0 ts = true := by
  induction ts with
  | nil => rfl
  | cons t ts ih =>
    obtain ⟨ht, hts⟩ := List.forall_mem_cons.1 h
    rw [balanced_cons_of_isPlain ht, ih hts]

theorem balanced_append_of {a b : List Token} (ha : balanced 0 a = true)
    (hb : balanced 0 b = true) : balanced 0 (a ++ b) = true :=
  (balanced_append ha 0).trans hb

end Token

namespace Declaration

open Run Token

/-! ## Forms -/

/-- A bracket group. -/
structure Group where
  opening : Placed
  inner : Run
  closing : Placed
  isOpen_opening : opening.isOpen = true
  isClose_closing : closing.isClose = true
  balanced_inner : balanced 0 inner.tokens = true

def Group.run (g : Group) : Run := g.opening :: (g.inner ++ [g.closing])

/-- The documentation comments and modifiers in front of a member. -/
structure Lead where
  run : Run
  isLead : ∀ t ∈ run, t.isDoc = true ∨ t.isKeywordIn Param.modifiers = true

namespace Lead

/-- The last documentation comment. -/
def doc (l : Lead) : Option String := (l.run.filter (·.isDoc)).getLast?.map (·.text)

def modifiers (l : Lead) : List String := (l.run.filter (!·.isDoc)).map (·.text.toLower)

end Lead

/-- A return type with its colon. -/
structure ReturnForm where
  colon : Placed
  type : Run
  isSymbol_colon : colon.isSymbol ":" = true
  balanced_type : balanced 0 type.tokens = true
  unended_type : ∀ t ∈ type, isEither "\x7b" ";" t = false

def ReturnForm.run (r : ReturnForm) : Run := r.colon :: r.type

/-- The body of a method, or the semicolon in its place. -/
inductive BodyForm where
  | absent (semicolon : Placed) (isSymbol_semicolon : semicolon.isSymbol ";" = true)
  | block (braces : Group) (isSymbol_opening : braces.opening.isSymbol "\x7b" = true)

namespace BodyForm

def run : BodyForm → Run
  | absent semicolon _ => [semicolon]
  | block braces _ => braces.run

/-- The statements of the body, which are none at all for a semicolon. -/
def statements (source : List Char) : BodyForm → Option (List Stmt)
  | absent _ _ => none
  | block braces _ => some (readStatements source braces.inner)

end BodyForm

/-- A method as it is written. -/
structure MethodForm where
  lead : Lead
  keyword : Placed
  /-- The `&` of a method that returns a reference. -/
  reference : Option Placed
  name : Placed
  params : Group
  returns : Option ReturnForm
  body : BodyForm
  isKeyword_keyword : keyword.isKeyword "function" = true
  isSymbol_reference : ∀ t ∈ reference, t.isSymbol "&" = true
  kind_name : name.kind = .name
  isSymbol_params : params.opening.isSymbol "(" = true

namespace MethodForm

/-- What stands after the keyword. -/
def signature (m : MethodForm) : Run :=
  m.reference.toList ++ m.name :: (m.params.run ++ (m.returns.elim [] (·.run) ++ m.body.run))

def run (m : MethodForm) : Run := m.lead.run ++ m.keyword :: m.signature

/-- The method that is read from the form, which stands in the text `source`. -/
def decl (source : List Char) (m : MethodForm) : MethodDecl where
  doc := m.lead.doc
  modifiers := m.lead.modifiers
  name := m.name.text
  params := Param.listOfRun m.params.inner
  returnType := m.returns.map (Run.join ·.type)
  body := m.body.statements source

end MethodForm

/-- The first end after the tokens `inner` is `last`, where `depth` brackets are open before them: a
semicolon or a closing brace after which no bracket is open. -/
structure EndsFirst (depth : Nat) (inner : Run) (last : Placed) : Prop where
  isEnd : last.isSymbol ";" = true ∨ last.isSymbol "\x7d" = true
  balanced : Token.balanced depth (Run.tokens (inner ++ [last])) = true
  isFirst : ∀ i (h : i < inner.length),
    Token.balanced depth (Run.tokens (inner.take (i + 1))) = true →
      inner[i].isSymbol ";" = false ∧ inner[i].isSymbol "\x7d" = false

/-- A member that is no method, as it is written. -/
structure OtherForm where
  lead : Lead
  first : Placed
  inner : Run
  last : Placed
  isDoc_first : first.isDoc = false
  isModifier_first : first.isKeywordIn Param.modifiers = false
  isFunction_first : first.isKeyword "function" = false
  isOpen_first : first.isOpen = false
  isClose_first : first.isClose = false
  isSemicolon_first : first.isSymbol ";" = false
  endsFirst : EndsFirst 0 inner last

def OtherForm.run (o : OtherForm) : Run := o.lead.run ++ o.first :: (o.inner ++ [o.last])

inductive MemberForm where
  | method (m : MethodForm)
  | other (o : OtherForm)

namespace MemberForm

def run : MemberForm → Run
  | method m => m.run
  | other o => o.run

def method? (source : List Char) : MemberForm → Option MethodDecl
  | method m => some (m.decl source)
  | other _ => none

end MemberForm

/-- A class as it is written. -/
structure ClassForm where
  kind : ClassKind
  keyword : Placed
  name : Placed
  /-- What stands between the name and the opening brace. -/
  header : Run
  opening : Placed
  members : List MemberForm
  closing : Placed
  ofToken?_keyword : ClassKind.ofToken? keyword.toToken = some kind
  kind_name : name.kind = .name
  isSymbol_header : ∀ t ∈ header, t.isSymbol "\x7b" = false
  isSymbol_opening : opening.isSymbol "\x7b" = true
  isSymbol_closing : closing.isSymbol "\x7d" = true

namespace ClassForm

/-- What stands after the keyword. -/
def content (c : ClassForm) : Run :=
  c.name :: (c.header ++ c.opening :: (c.members.flatMap MemberForm.run ++ [c.closing]))

def run (c : ClassForm) : Run := c.keyword :: c.content

/-- The class that is read from the form: its methods in order. -/
def decl (source : List Char) (c : ClassForm) : ClassDecl where
  kind := c.kind
  name := c.name.text
  methods := c.members.filterMap (MemberForm.method? source)

end ClassForm

variable {ctx : Context} {after : Nat} {doc : Option String} {modifiers : List String}
  {t : Placed} {ts rest : Run}

/-! ## Groups -/

theorem Group.run_append (g : Group) (rest : Run) :
    g.run ++ rest = g.opening :: (g.inner ++ g.closing :: rest) := by
  simp [Group.run]

theorem Group.group?_run (g : Group) (rest : Run) :
    Run.group? (g.run ++ rest) = some (g.inner, rest) :=
  group?_eq_some_iff.2 ⟨_, _, g.run_append rest, g.isOpen_opening, g.isClose_closing,
    g.balanced_inner⟩

theorem Group.balanced_run (g : Group) : balanced 0 g.run.tokens = true := by
  have hgroup := balanced_group g.isOpen_opening g.isClose_closing g.balanced_inner
  simpa [Group.run, tokens] using hgroup

theorem startsWith_group {s : String} {g : Group} (h : g.opening.isSymbol s = true) (rest : Run) :
    startsWith s (g.run ++ rest) = true := h

/-! ## Methods -/

theorem methodType_form (r : ReturnForm) {stop : Placed} (hstop : isEither "\x7b" ";" stop = true)
    (rest : Run) : methodType (r.run ++ stop :: rest) = (some (Run.join r.type), stop :: rest) := by
  have hcolon : startsWith ":" (r.run ++ stop :: rest) = true := r.isSymbol_colon
  have hdrop : (r.run ++ stop :: rest).drop 1 = r.type ++ stop :: rest := rfl
  have htype : ∀ t ∈ r.type, (!isEither "\x7b" ";" t) = true := fun t ht => by
    rw [r.unended_type t ht]
    rfl
  have htake : (stop :: rest).takeWhile (!isEither "\x7b" ";" ·) = [] :=
    List.takeWhile_cons_of_neg (by simp [hstop])
  have hleft : (stop :: rest).dropWhile (!isEither "\x7b" ";" ·) = stop :: rest :=
    List.dropWhile_cons_of_neg (by simp [hstop])
  rw [methodType, if_pos hcolon, hdrop, List.takeWhile_append_of_pos htype,
    List.dropWhile_append_of_pos htype, htake, hleft, List.append_nil]

theorem methodType_of_stop {stop : Placed} (hstop : isEither "\x7b" ";" stop = true) (rest : Run) :
    methodType (stop :: rest) = (none, stop :: rest) := by
  have hcolon : ¬startsWith ":" (stop :: rest) = true := by
    rcases Bool.or_eq_true_iff.1 hstop with h | h <;>
      simp [startsWith, eq_of_isSymbol h, Token.isSymbol, Token.symbol]
  rw [methodType, if_neg hcolon]

/-- A body begins with the token that ends a return type. -/
theorem BodyForm.exists_cons (b : BodyForm) :
    ∃ stop u, b.run = stop :: u ∧ isEither "\x7b" ";" stop = true := by
  cases b with
  | absent semicolon h => exact ⟨semicolon, [], rfl, Bool.or_eq_true_iff.2 (.inr h)⟩
  | block braces h => exact ⟨braces.opening, _, rfl, Bool.or_eq_true_iff.2 (.inl h)⟩

theorem methodType_returns (returns : Option ReturnForm) (b : BodyForm) (rest : Run) :
    methodType (returns.elim [] (·.run) ++ (b.run ++ rest)) =
      (returns.map (Run.join ·.type), b.run ++ rest) := by
  obtain ⟨stop, u, hbody, hstop⟩ := b.exists_cons
  rw [hbody]
  cases returns with
  | none => exact methodType_of_stop hstop _
  | some r => exact methodType_form r hstop _

theorem readBody_form (method : String) (b : BodyForm) (rest : Run) :
    readBody ctx method (b.run ++ rest) = .ok (b.statements ctx.source, rest) := by
  cases b with
  | absent semicolon h =>
    have hsemicolon : startsWith ";" (BodyForm.run (.absent semicolon h) ++ rest) = true := h
    rw [readBody, if_pos hsemicolon]
    rfl
  | block braces h =>
    have hopen : startsWith "\x7b" (braces.run ++ rest) = true := startsWith_group h rest
    have hsemicolon : ¬startsWith ";" (braces.run ++ rest) = true := by
      have hopening : startsWith ";" (braces.run ++ rest) = braces.opening.isSymbol ";" := rfl
      rw [hopening, eq_of_isSymbol h]
      decide
    rw [BodyForm.run, readBody, if_neg hsemicolon, if_pos hopen, braces.group?_run]
    rfl

/-- A method is read from what stands after its keyword. -/
theorem readMethod_form (doc : Option String) (modifiers : List String) (m : MethodForm)
    (rest : Run) :
    readMethod ctx doc modifiers m.keyword (m.signature ++ rest) =
      .ok ({ m.decl ctx.source with doc, modifiers }, rest) := by
  have hreference : (if startsWith "&" (m.signature ++ rest) then (m.signature ++ rest).drop 1
      else m.signature ++ rest) =
      m.name :: (m.params.run ++ (m.returns.elim [] (·.run) ++ (m.body.run ++ rest))) := by
    rw [MethodForm.signature]
    cases hreference : m.reference with
    | none =>
      have hname : m.name.isSymbol "&" = false :=
        isSymbol_of_ne_symbol (by simp [m.kind_name]) "&"
      simp [startsWith, hname]
    | some t =>
      have hsymbol : t.isSymbol "&" = true := m.isSymbol_reference t hreference
      simp [startsWith, hsymbol]
  have hname : m.name.name? = some m.name.text := if_pos m.kind_name
  have hparens (u : Run) : startsWith "(" (m.params.run ++ u) = true :=
    startsWith_group m.isSymbol_params u
  simp only [readMethod, hreference, hname, hparens, m.params.group?_run, methodType_returns,
    readBody_form, Bool.not_true, Bool.false_eq_true, if_false]
  rfl

/-! ## Members -/

section

variable (hafter : after ≤ rest.length)

include hafter

theorem readMembers_doc (ht : t.isDoc = true) :
    readMembers ctx after doc modifiers (t :: rest) =
      readMembers ctx after (some t.text) modifiers rest := by
  rw [readMembers.eq_def, if_neg (by rw [List.length_cons]; omega)]
  simp only [ht, if_true]

theorem readMembers_modifier (ht : t.isKeywordIn Param.modifiers = true) :
    readMembers ctx after doc modifiers (t :: rest) =
      readMembers ctx after doc (modifiers ++ [t.text.toLower]) rest := by
  have hdoc : t.isDoc = false := by simp [Token.isDoc, kind_of_isKeywordIn ht]
  rw [readMembers.eq_def, if_neg (by rw [List.length_cons]; omega)]
  simp only [hdoc, ht, if_true, Bool.false_eq_true, if_false]

theorem readMembers_function {m : MethodDecl} (ht : t.isKeyword "function" = true)
    (hmethod : readMethod ctx doc modifiers t ts = .ok (m, rest)) :
    readMembers ctx after doc modifiers (t :: ts) =
      (readMembers ctx after none [] rest).map (m :: ·) := by
  have hlength := length_le_of_readMethod hmethod
  have hdoc : t.isDoc = false := by simp [Token.isDoc, kind_of_isKeywordIn ht]
  have hmodifier : t.isKeywordIn Param.modifiers = false :=
    isKeywordIn_eq_false ht (by decide)
  rw [readMembers.eq_def, if_neg (by rw [List.length_cons]; omega)]
  simp only [hdoc, hmodifier, ht, if_true, Bool.false_eq_true, if_false]
  split
  · rename_i hmethod'
    rw [hmethod] at hmethod'
    cases hmethod'
  · rename_i hmethod'
    rw [hmethod] at hmethod'
    cases hmethod'
    rfl

/-- What stands in front of a member is kept for it: the last documentation comment and all
modifiers. -/
theorem readMembers_lead (l : Lead) :
    readMembers ctx after doc modifiers (l.run ++ rest) =
      readMembers ctx after (l.doc <|> doc) (modifiers ++ l.modifiers) rest := by
  obtain ⟨run, hrun⟩ := l
  induction run generalizing doc modifiers with
  | nil => simp [Lead.doc, Lead.modifiers]
  | cons t run ih =>
    obtain ⟨ht, hrest⟩ := List.forall_mem_cons.1 hrun
    have hlength : after ≤ (run ++ rest).length := by
      rw [List.length_append]
      omega
    rw [List.cons_append]
    rcases ht with ht | ht
    · rw [readMembers_doc hlength ht, ih hrest]
      simp only [Lead.doc, Lead.modifiers, List.filter_cons, ht, if_true, Bool.not_true,
        Bool.false_eq_true, if_false, List.getLast?_cons, Option.map_some]
      cases (run.filter fun t => t.isDoc).getLast? <;> rfl
    · have hdoc : t.isDoc = false := by simp [Token.isDoc, kind_of_isKeywordIn ht]
      rw [readMembers_modifier hlength ht, ih hrest]
      simp [Lead.doc, Lead.modifiers, hdoc]

theorem readMembers_methodForm (m : MethodForm) :
    readMembers ctx after none [] (m.run ++ rest) =
      (readMembers ctx after none [] rest).map (m.decl ctx.source :: ·) := by
  have hlength : after ≤ (m.keyword :: (m.signature ++ rest)).length := by
    rw [List.length_cons, List.length_append]
    omega
  have hrun : m.run ++ rest = m.lead.run ++ m.keyword :: (m.signature ++ rest) := by
    simp [MethodForm.run]
  rw [hrun, readMembers_lead hlength,
    readMembers_function hafter m.isKeyword_keyword (readMethod_form _ _ m rest)]
  simp [MethodForm.decl]

end

section

variable {depth : Nat}

theorem endsMember_of_balanced (ht : t.isSymbol ";" = true ∨ t.isSymbol "\x7d" = true)
    (h : balanced depth [t.toToken] = true) : endsMember depth t = true := by
  rcases ht with ht | ht
  · have hopen : (symbol ";").isOpen = false := by decide
    have hclose : (symbol ";").isClose = false := by decide
    rw [eq_of_isSymbol ht, balanced, balanced, depthAfter, hopen, hclose] at h
    obtain rfl : depth = 0 := by simpa using h
    rw [endsMember, eq_of_isSymbol ht]
    decide
  · rw [balanced, balanced, Bool.and_eq_true] at h
    rw [endsMember, ht, h.2, Bool.and_self, Bool.or_true]

theorem balanced_of_endsMember (h : endsMember depth t = true)
    (hclose : (t.isClose && depth == 0) = false) :
    (t.isSymbol ";" = true ∨ t.isSymbol "\x7d" = true) ∧ balanced depth [t.toToken] = true := by
  rw [endsMember, Bool.or_eq_true] at h
  rw [balanced, balanced, hclose]
  rcases h with h | h
  · simp only [cutsAt, Bool.and_eq_true, beq_iff_eq, Bool.not_eq_true'] at h
    obtain ⟨⟨⟨rfl, hopen⟩, hclose⟩, hsymbol⟩ := h
    simp [depthAfter, hopen, hsymbol]
  · obtain ⟨hsymbol, hdepth⟩ := Bool.and_eq_true_iff.1 h
    simp [hsymbol, eq_of_beq hdepth]

/-- After a token that is no end, the end is the same. -/
theorem EndsFirst.tail {inner : Run} {last : Placed} (h : EndsFirst depth (t :: inner) last) :
    endsMember depth t = false ∧ EndsFirst (t.depthAfter depth) inner last := by
  have hall : Token.balanced depth (t.toToken :: Run.tokens (inner ++ [last])) = true := h.balanced
  obtain ⟨hclose, hrest⟩ := balanced_cons hall
  constructor
  · rw [← Bool.not_eq_true]
    intro hend
    obtain ⟨hsymbol, hbalanced⟩ := balanced_of_endsMember hend hclose
    have hfirst : t.isSymbol ";" = false ∧ t.isSymbol "\x7d" = false :=
      h.isFirst 0 (Nat.zero_lt_succ _) hbalanced
    obtain ⟨hsemicolon, hbrace⟩ := hfirst
    rcases hsymbol with hsymbol | hsymbol
    · rw [hsemicolon] at hsymbol
      cases hsymbol
    · rw [hbrace] at hsymbol
      cases hsymbol
  · refine ⟨h.isEnd, hrest, fun i hi hbalanced => ?_⟩
    have hall : Token.balanced depth (t.toToken :: Run.tokens (inner.take (i + 1))) = true := by
      rw [Token.balanced, hclose, hbalanced]
      rfl
    exact h.isFirst (i + 1) (Nat.succ_lt_succ hi) hall

/-- A member that is no method goes through its first end. -/
theorem memberLength_append {inner : Run} {last : Placed} (h : EndsFirst depth inner last)
    (more : Run) : memberLength depth (inner ++ last :: more) = inner.length + 1 := by
  induction inner generalizing depth with
  | nil => rw [List.nil_append, memberLength, if_pos (endsMember_of_balanced h.isEnd h.balanced)]; rfl
  | cons t inner ih =>
    obtain ⟨hgoesOn, htail⟩ := h.tail
    rw [List.cons_append, memberLength, hgoesOn, ih htail]
    rfl

end

theorem readMembers_otherForm (hafter : after ≤ rest.length) (o : OtherForm) :
    readMembers ctx after none [] (o.run ++ rest) = readMembers ctx after none [] rest := by
  have hrun : o.run ++ rest = o.lead.run ++ o.first :: (o.inner ++ o.last :: rest) := by
    simp [OtherForm.run]
  have hends : endsMember 0 o.first = false := by
    have hsymbol : o.first.isSymbol "\x7d" = false := by
      rw [← Bool.not_eq_true]
      intro h
      have hclose := o.isClose_first
      rw [eq_of_isSymbol h] at hclose
      cases hclose
    simp [endsMember, cutsAt, o.isSemicolon_first, hsymbol]
  have hdepth : o.first.depthAfter 0 = 0 := by
    rw [depthAfter, o.isOpen_first, o.isClose_first]
    rfl
  -- the tokens of the class body that are left, and with them the whole member
  have htake : (o.first :: (o.inner ++ o.last :: rest)).take
      ((o.first :: (o.inner ++ o.last :: rest)).length - after) =
      o.first :: (o.inner ++ o.last :: rest.take (rest.length - after)) := by
    have hlength : (o.first :: (o.inner ++ o.last :: rest)).length - after =
        (o.inner.length + (rest.length - after + 1)) + 1 := by
      simp only [List.length_cons, List.length_append]
      omega
    rw [hlength, List.take_succ_cons, List.take_length_add_append, List.take_succ_cons]
  have hmember : memberLength 0 (o.first :: (o.inner ++ o.last :: rest.take (rest.length - after))) =
      o.inner.length + 1 + 1 := by
    rw [memberLength, hends, hdepth, memberLength_append o.endsFirst]
    rfl
  have hdrop : (o.inner ++ o.last :: rest).drop (o.inner.length + 1 + 1 - 1) = rest := by
    rw [Nat.add_sub_cancel, List.drop_length_add_append]
    rfl
  rw [hrun, readMembers_lead (by simp; omega), readMembers.eq_def,
    if_neg (by simp only [List.length_cons, List.length_append]; omega)]
  simp only [o.isDoc_first, o.isModifier_first, o.isFunction_first, htake, hmember, hdrop,
    Bool.false_eq_true, if_false]

theorem readMembers_form (hafter : after ≤ rest.length) (m : MemberForm) :
    readMembers ctx after none [] (m.run ++ rest) =
      (readMembers ctx after none [] rest).map ((m.method? ctx.source).toList ++ ·) := by
  cases m with
  | method m => exact readMembers_methodForm hafter m
  | other o =>
    rw [MemberForm.run, readMembers_otherForm hafter o]
    cases readMembers ctx after none [] rest <;> rfl

/-- The members of a class are read one by one. -/
theorem readMembers_forms (hafter : after ≤ rest.length) (ms : List MemberForm) :
    readMembers ctx after none [] (ms.flatMap MemberForm.run ++ rest) =
      (readMembers ctx after none [] rest).map
        (ms.filterMap (MemberForm.method? ctx.source) ++ ·) := by
  induction ms with
  | nil =>
    rw [List.flatMap_nil, List.nil_append]
    cases readMembers ctx after none [] rest <;> rfl
  | cons m ms ih =>
    have hlength : after ≤ (ms.flatMap MemberForm.run ++ rest).length := by
      rw [List.length_append]
      omega
    rw [List.flatMap_cons, List.append_assoc, readMembers_form hlength, ih]
    cases readMembers ctx after none [] rest with
    | error e => rfl
    | ok methods => cases m <;> rfl

/-! ## Balance -/

theorem Lead.balanced_run (l : Lead) : balanced 0 l.run.tokens = true := by
  refine balanced_of_forall fun t ht => ?_
  obtain ⟨u, hu, rfl⟩ := List.mem_map.1 ht
  exact (l.isLead u hu).elim isPlain_of_isDoc isPlain_of_isKeywordIn

theorem ReturnForm.balanced_run (r : ReturnForm) : balanced 0 r.run.tokens = true := by
  have hcolon : r.colon.isPlain = true := by
    rw [eq_of_isSymbol r.isSymbol_colon]
    decide
  exact (balanced_cons_of_isPlain hcolon _).trans r.balanced_type

theorem BodyForm.balanced_run (b : BodyForm) : balanced 0 b.run.tokens = true := by
  cases b with
  | absent semicolon h =>
    have hsemicolon : semicolon.isPlain = true := by
      rw [eq_of_isSymbol h]
      decide
    exact balanced_cons_of_isPlain hsemicolon []
  | block braces h => exact braces.balanced_run

theorem MethodForm.balanced_run (m : MethodForm) : balanced 0 m.run.tokens = true := by
  have hreference : balanced 0 (Run.tokens m.reference.toList) = true := by
    refine balanced_of_forall fun t ht => ?_
    obtain ⟨u, hu, rfl⟩ := List.mem_map.1 ht
    rw [eq_of_isSymbol (m.isSymbol_reference u (by simpa using hu))]
    decide
  have hname : m.name.isPlain = true := isPlain_of_ne_symbol (by simp [m.kind_name])
  have hreturns : balanced 0 (Run.tokens (m.returns.elim [] (·.run))) = true := by
    cases m.returns with
    | none => rfl
    | some r => exact r.balanced_run
  have hend := balanced_append_of m.params.balanced_run
    (balanced_append_of hreturns m.body.balanced_run)
  have hsignature := balanced_append_of hreference
    ((balanced_cons_of_isPlain hname _).trans hend)
  have hall := balanced_append_of m.lead.balanced_run
    ((balanced_cons_of_isPlain (isPlain_of_isKeywordIn m.isKeyword_keyword) _).trans hsignature)
  simpa [MethodForm.run, MethodForm.signature, Run.tokens] using hall

theorem OtherForm.balanced_run (o : OtherForm) : balanced 0 o.run.tokens = true := by
  have hfirst : o.first.isPlain = true := by simp [isPlain, o.isOpen_first, o.isClose_first]
  have hall := balanced_append_of o.lead.balanced_run
    ((balanced_cons_of_isPlain hfirst _).trans o.endsFirst.balanced)
  simpa [OtherForm.run, Run.tokens] using hall

theorem MemberForm.balanced_run (m : MemberForm) : balanced 0 m.run.tokens = true := by
  cases m with
  | method m => exact m.balanced_run
  | other o => exact o.balanced_run

theorem ClassForm.balanced_members (c : ClassForm) :
    balanced 0 (Run.tokens (c.members.flatMap MemberForm.run)) = true := by
  rw [Run.tokens, List.map_flatMap]
  exact balanced_flatMap fun m _ => m.balanced_run

/-! ## Classes -/

/-- A class is its name and what is read between its braces. -/
theorem readClass_eq {kind : ClassKind} (keyword : Placed) {name opening closing : Placed}
    (hname : name.kind = .name) {header members : Run}
    (hheader : ∀ t ∈ header, t.isSymbol "\x7b" = false)
    (hopening : opening.isSymbol "\x7b" = true) (hclosing : closing.isSymbol "\x7d" = true)
    (hbalanced : balanced 0 members.tokens = true) {methods : List MethodDecl}
    (hmembers : readMembers ctx (rest.length + 1) none [] (members ++ closing :: rest) =
      .ok methods) :
    readClass ctx kind keyword (name :: (header ++ opening :: (members ++ closing :: rest))) =
      .ok (⟨kind, name.text, methods⟩, rest) := by
  have hhead (u : Run) : (name :: u : Run).head?.bind (·.name?) = some name.text := if_pos hname
  have hdrop (u : Run) : (header ++ opening :: u).dropWhile
      (fun t : Placed => !t.isSymbol "\x7b") = opening :: u := by
    rw [List.dropWhile_append_of_pos fun t ht => by rw [hheader t ht]; rfl]
    exact List.dropWhile_cons_of_neg (by simp [hopening])
  have hgroup : Run.group? (opening :: (members ++ closing :: rest)) = some (members, rest) :=
    group?_eq_some_iff.2 ⟨_, _, rfl, by rw [eq_of_isSymbol hopening]; rfl,
      by rw [eq_of_isSymbol hclosing]; rfl, hbalanced⟩
  simp only [readClass, hhead, List.drop_succ_cons, List.drop_zero, hdrop, hgroup, hmembers]

theorem readClass_form (c : ClassForm) (rest : Run) :
    readClass ctx c.kind c.keyword (c.content ++ rest) = .ok (c.decl ctx.source, rest) := by
  have hcontent : c.content ++ rest = c.name :: (c.header ++ c.opening ::
      (c.members.flatMap MemberForm.run ++ c.closing :: rest)) := by
    simp [ClassForm.content]
  have hmembers : readMembers ctx (rest.length + 1) none []
      (c.members.flatMap MemberForm.run ++ c.closing :: rest) =
      .ok (c.members.filterMap (MemberForm.method? ctx.source)) := by
    rw [readMembers_forms (by simp), readMembers.eq_def, if_pos (by simp)]
    simp [Except.map]
  rw [hcontent]
  exact readClass_eq c.keyword c.kind_name c.isSymbol_header c.isSymbol_opening
    c.isSymbol_closing c.balanced_members hmembers

theorem isKeyword_eq_false_of_ofToken? {t : Token} {kind : ClassKind} {word : String}
    (h : ClassKind.ofToken? t = some kind) (hword : word ∉ ["class", "trait", "interface"]) :
    t.isKeyword word = false := by
  simp only [List.mem_cons, List.not_mem_nil, or_false, not_or] at hword
  have hother {keyword : String} (hkeyword : t.isKeyword keyword = true) (hne : word ≠ keyword) :
      t.isKeyword word = false :=
    isKeywordIn_eq_false hkeyword (by simpa using Ne.symm hne)
  unfold ClassKind.ofToken? at h
  split at h
  · exact hother ‹_› hword.1
  · split at h
    · exact hother ‹_› hword.2.1
    · split at h
      · exact hother ‹_› hword.2.2
      · cases h

/-- **A class is read as its methods in order**, each with what stands in its own form and nothing
else, and what follows the closing brace is read as if it stood alone. -/
theorem readFile_form (c : ClassForm) (rest : Run) :
    readClass ctx c.kind c.keyword (c.content ++ rest) = .ok (c.decl ctx.source, rest) ∧
      readFile ctx false (c.run ++ rest) = (readFile ctx false rest).map fun file =>
        { file with classes := c.decl ctx.source :: file.classes } := by
  refine ⟨readClass_form c rest, ?_⟩
  have hkeyword {word : String} (hword : word ∉ ["class", "trait", "interface"]) :
      c.keyword.isKeyword word = false :=
    isKeyword_eq_false_of_ofToken? c.ofToken?_keyword hword
  have hkind : (if false then none else ClassKind.ofToken? c.keyword.toToken) = some c.kind :=
    c.ofToken?_keyword
  have hrun : c.run ++ rest = c.keyword :: (c.content ++ rest) := rfl
  rw [hrun, readFile_class (hkeyword (by decide)) (hkeyword (by decide)) hkind
    (readClass_form c rest)]
  cases readFile ctx false rest <;> rfl

/-- A class with a trait use that ends with its braces, a constant and two methods. -/
def mixedForm : ClassForm where
  kind := .regular
  keyword := ⟨⟨.name, "class"⟩, 0⟩
  name := ⟨⟨.name, "T"⟩, 6⟩
  header := []
  opening := ⟨.symbol "\x7b", 8⟩
  members :=
    [.other
      { lead := ⟨[], nofun⟩
        first := ⟨⟨.name, "use"⟩, 10⟩
        inner := [⟨⟨.name, "A"⟩, 14⟩, ⟨.symbol "\x7b", 16⟩, ⟨⟨.name, "a"⟩, 18⟩,
          ⟨⟨.name, "as"⟩, 20⟩, ⟨⟨.name, "b"⟩, 23⟩, ⟨.symbol ";", 24⟩]
        last := ⟨.symbol "\x7d", 26⟩
        isDoc_first := rfl
        isModifier_first := by decide +kernel
        isFunction_first := by decide +kernel
        isOpen_first := rfl
        isClose_first := rfl
        isSemicolon_first := rfl
        endsFirst := ⟨.inr rfl, rfl, by decide⟩ },
     .method
      { lead := ⟨[⟨⟨.doc, "/** d */"⟩, 28⟩, ⟨⟨.name, "Public"⟩, 37⟩], by decide +kernel⟩
        keyword := ⟨⟨.name, "function"⟩, 44⟩
        reference := some ⟨.symbol "&", 53⟩
        name := ⟨⟨.name, "f"⟩, 54⟩
        params :=
          { opening := ⟨.symbol "(", 55⟩
            inner := [⟨⟨.variable, "$x"⟩, 56⟩]
            closing := ⟨.symbol ")", 58⟩
            isOpen_opening := rfl
            isClose_closing := rfl
            balanced_inner := rfl }
        returns := some
          { colon := ⟨.symbol ":", 59⟩
            type := [⟨⟨.name, "int"⟩, 61⟩]
            isSymbol_colon := rfl
            balanced_type := rfl
            unended_type := by decide }
        body := .block
          { opening := ⟨.symbol "\x7b", 65⟩
            inner := []
            closing := ⟨.symbol "\x7d", 66⟩
            isOpen_opening := rfl
            isClose_closing := rfl
            balanced_inner := rfl } rfl
        isKeyword_keyword := by decide +kernel
        isSymbol_reference := by decide
        kind_name := rfl
        isSymbol_params := rfl },
     .other
      { lead := ⟨[⟨⟨.doc, "/** n */"⟩, 68⟩], by decide +kernel⟩
        first := ⟨⟨.name, "const"⟩, 77⟩
        inner := [⟨⟨.name, "N"⟩, 83⟩, ⟨.symbol "=", 85⟩, ⟨⟨.int, "1"⟩, 87⟩]
        last := ⟨.symbol ";", 88⟩
        isDoc_first := rfl
        isModifier_first := by decide +kernel
        isFunction_first := by decide +kernel
        isOpen_first := rfl
        isClose_first := rfl
        isSemicolon_first := rfl
        endsFirst := ⟨.inl rfl, rfl, by decide⟩ },
     .method
      { lead := ⟨[], nofun⟩
        keyword := ⟨⟨.name, "function"⟩, 90⟩
        reference := none
        name := ⟨⟨.name, "g"⟩, 99⟩
        params :=
          { opening := ⟨.symbol "(", 100⟩
            inner := []
            closing := ⟨.symbol ")", 101⟩
            isOpen_opening := rfl
            isClose_closing := rfl
            balanced_inner := rfl }
        returns := none
        body := .absent ⟨.symbol ";", 102⟩ rfl
        isKeyword_keyword := by decide +kernel
        isSymbol_reference := nofun
        kind_name := rfl
        isSymbol_params := rfl }]
  closing := ⟨.symbol "\x7d", 104⟩
  ofToken?_keyword := by decide +kernel
  kind_name := rfl
  isSymbol_header := nofun
  isSymbol_opening := rfl
  isSymbol_closing := rfl

def mixedText : List Char :=
  ("class T \x7b use A \x7b a as b; \x7d /** d */ Public function &f($x): int \x7b\x7d /** n */ " ++
    "const N = 1; function g(); \x7d return;").toList

/-- The comment of the constant is not that of the method after it. -/
theorem readFile_form_mixed :
    ∃ c, scan mixedText = .ok (mixedForm.run ++ [⟨⟨.name, "return"⟩, 106⟩, ⟨.symbol ";", 112⟩]) ∧
      readClass ⟨mixedText, 112⟩ .regular ⟨⟨.name, "class"⟩, 0⟩
        (mixedForm.content ++ [⟨⟨.name, "return"⟩, 106⟩, ⟨.symbol ";", 112⟩]) =
          .ok (c, [⟨⟨.name, "return"⟩, 106⟩, ⟨.symbol ";", 112⟩]) ∧
      c.methods.map
          (fun m => (m.doc, m.modifiers, m.name, m.params, m.returnType, m.body.isSome)) =
        [(some "/** d */", ["public"], "f", [{ name := "x" }], some "int", true),
          (none, [], "g", [], none, false)] := by
  refine ⟨_, by cbv, (@readFile_form ⟨mixedText, 112⟩ mixedForm _).1, ?_⟩
  cbv

end Declaration

end CurryGen

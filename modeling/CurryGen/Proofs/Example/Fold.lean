import CurryGen.Proofs.Template.Spelling

/-!
# Rows that absorb an assignment

The rows of an example method stand for its statements in order. An assertion about a variable that
the statement before it assigns takes the place of both, so the variable may be shown where nothing
assigns it any more.

* `Mentions`: a text has the variable.
* `MentionsOnlyIn`: it has the variable only in pieces that are copied as they are.
* `Silent.closed`: so it is with what is printed of tokens without the variable.
* `Shown`, `Examples.exists_shown`: the statements that each row stands for.
* `Examples.customRows_shown`: when a variable is shown whose assignment is not.
-/

namespace CurryGen

open Scan

/-! ## Mentions of a variable -/

/-- The text is what may follow the `$` of a variable. -/
def IsVariableName (v : String) : Prop :=
  ∃ c cs, v.toList = c :: cs ∧ isNameStart c = true ∧ ∀ d ∈ cs, isNameChar d = true

/-- Between these parts a text has a variable, whose name goes on no further. -/
def MentionedBetween (v : String) (text before after : List Char) : Prop :=
  text = before ++ '$' :: (v.toList ++ after) ∧ ∀ c ∈ after.head?, isNameChar c = false

/-- A text has a variable. -/
def Mentions (v text : String) : Prop := ∃ before after, MentionedBetween v text.toList before after

/-- What stands between the parts belongs to a piece of the text. -/
def StandsIn (P : String → Prop) (text before after : List Char) : Prop :=
  ∃ a w b, P w ∧ text = a ++ w.toList ++ b ∧ a <+: before ∧ b <:+ after

/-- A text has a variable in one of its pieces. -/
def MentionsIn (v : String) (P : String → Prop) (text : String) : Prop :=
  ∃ before after, MentionedBetween v text.toList before after ∧
    StandsIn P text.toList before after

/-- A text has a variable in its pieces only. -/
def MentionsOnlyIn (v : String) (P : String → Prop) (text : String) : Prop :=
  ∀ before after, MentionedBetween v text.toList before after →
    StandsIn P text.toList before after

theorem IsVariableName.isNameChar {v : String} (h : IsVariableName v) :
    ∀ c ∈ v.toList, isNameChar c = true := by
  obtain ⟨c, cs, hv, hc, hcs⟩ := h
  rw [hv]
  exact List.forall_mem_cons.2 ⟨isNameChar_of_isNameStart hc, hcs⟩

namespace MentionsOnlyIn

variable {v : String} {P : String → Prop} {s t : String}

theorem none (h : ¬Mentions v s) : MentionsOnlyIn v P s := fun before after hs =>
  absurd ⟨before, after, hs⟩ h

theorem plain (h : '$' ∉ s.toList) : MentionsOnlyIn v P s := .none fun ⟨_, _, hs, _⟩ =>
  h (by rw [hs]; simp)

theorem piece (h : P s) : MentionsOnlyIn v P s := fun _ _ _ =>
  ⟨[], s, [], h, by simp, List.nil_prefix, List.nil_suffix⟩

/-- Two texts make no variable where they meet if the first ends, or the second begins, with neither
`$` nor a character of names. -/
theorem append (hv : IsVariableName v) (hs : MentionsOnlyIn v P s) (ht : MentionsOnlyIn v P t)
    (hmeet : (∀ c ∈ s.toList.getLast?, c ≠ '$' ∧ isNameChar c = false) ∨
      ∀ c ∈ t.toList.head?, isNameChar c = false) : MentionsOnlyIn v P (s ++ t) := by
  have hfirst {before after : List Char} (h : MentionedBetween v s.toList before after) :
      StandsIn P (s ++ t).toList before (after ++ t.toList) := by
    obtain ⟨a, w, b, hw, hparts, ha, hb⟩ := hs before after h
    refine ⟨a, w, b ++ t.toList, hw, ?_, ha, ?_⟩
    · rw [String.toList_append, hparts, List.append_assoc _ b]
    · obtain ⟨x, rfl⟩ := hb
      exact ⟨x, (List.append_assoc x b _).symm⟩
  have hsecond {before after : List Char} (h : MentionedBetween v t.toList before after) :
      StandsIn P (s ++ t).toList (s.toList ++ before) after := by
    obtain ⟨a, w, b, hw, hparts, ha, hb⟩ := ht before after h
    refine ⟨s.toList ++ a, w, b, hw, ?_, (List.prefix_append_right_inj _).2 ha, hb⟩
    rw [String.toList_append, hparts, List.append_assoc, List.append_assoc, List.append_assoc]
  rintro before after ⟨htext, hafter⟩
  rw [String.toList_append] at htext
  rcases List.append_eq_append_iff.1 htext with ⟨u, rfl, hu⟩ | ⟨u, hu, hrest⟩
  · exact hsecond ⟨hu, hafter⟩
  cases u with
  | nil =>
    rw [List.append_nil] at hu
    rw [← hu, ← List.append_nil s.toList]
    exact hsecond ⟨hrest.symm, hafter⟩
  | cons c u =>
    obtain ⟨rfl, hjoined⟩ := List.cons.inj hrest
    rcases List.append_eq_append_iff.1 hjoined with ⟨e, rfl, rfl⟩ | ⟨e, hname, hlater⟩
    · refine hfirst ⟨hu, fun d hd => hafter d ?_⟩
      rw [List.head?_append, Option.mem_def.1 hd]
      rfl
    · cases e with
      | nil =>
        obtain rfl : after = t.toList := hlater.symm
        rw [List.append_nil] at hname
        subst hname
        have hend : MentionedBetween v s.toList before [] := by
          refine ⟨?_, nofun⟩
          rw [List.append_nil]
          exact hu
        exact hfirst hend
      | cons d e =>
        -- the name would go on from the first text into the second
        exfalso
        have hchars := hv.isNameChar
        rw [hname] at hchars
        rcases hmeet with hmeet | hmeet
        · have hlast := hmeet (('$' :: u).getLast (List.cons_ne_nil _ _)) (by
            rw [hu, List.getLast?_append_of_ne_nil _ (List.cons_ne_nil _ _),
              List.getLast?_eq_some_getLast (List.cons_ne_nil _ _)]
            rfl)
          rcases List.mem_cons.1 (List.getLast_mem (List.cons_ne_nil '$' u)) with h | h
          · exact hlast.1 h
          · rw [hchars _ (List.mem_append_left _ h)] at hlast
            cases hlast.2
        · have hhead := hmeet d (by rw [hlater]; rfl)
          rw [hchars d (by simp)] at hhead
          cases hhead

end MentionsOnlyIn

/-! ## Variables in tokens -/

theorem isVariableName_of_stands {v : String} (h : Stands ⟨.variable, "$" ++ v⟩ []) :
    IsVariableName v := by
  obtain ⟨c, w, htext, hfound⟩ := h
  have hchars : c = '$' ∧ w = v.toList := by
    rw [String.toList_append] at htext
    obtain ⟨rfl, rfl⟩ := List.cons.inj htext
    exact ⟨rfl, rfl⟩
  obtain ⟨rfl, rfl⟩ := hchars
  rw [List.append_nil] at hfound
  cases tokenAt_of_found hfound with
  | number _ _ hkind => rcases hkind with hkind | hkind <;> cases hkind
  | @variableName d ds _ hv hd hlength =>
    rw [hv] at hlength
    exact ⟨d, ds, hv, hd, count_eq_length_iff.1 (Nat.succ.inj hlength)⟩

/-- A token mentions a variable only if it is that variable, a string or a comment. -/
theorem Scan.Stands.not_mentions {t : Token} (h : Stands t []) (hstring : t.kind ≠ .string)
    (hdoc : t.kind ≠ .doc) {v : String} (hv : IsVariableName v)
    (hne : t.variableName? ≠ some v) : ¬Mentions v t.text := by
  rintro ⟨before, after, htext, hafter⟩
  by_cases hsymbol : t.kind = .symbol
  · have hnone : ∀ s ∈ symbols, '$' ∉ s.toList := by decide
    exact hnone _ (h.mem_symbols hsymbol) (by rw [htext]; simp)
  obtain ⟨c, w, hcw, hfound⟩ := h
  rw [List.append_nil] at hfound
  have hrest : '$' ∉ w := notMem_of_found (by decide) (by decide) hfound hstring hdoc hsymbol
  rw [hcw] at htext
  cases before with
  | cons d before =>
    obtain ⟨-, rfl⟩ := List.cons.inj htext
    exact hrest (by simp)
  | nil =>
    obtain ⟨rfl, rfl⟩ := List.cons.inj htext
    obtain ⟨d, ds, hname, hd, hds⟩ := hv
    rw [hname, List.cons_append] at hfound
    have hvariable : variableName (d :: (ds ++ after)) = .token t.kind (d :: (ds ++ after)).length :=
      hfound
    rw [variableName, if_pos hd] at hvariable
    obtain ⟨hkind, hcount⟩ := Found.token.inj hvariable
    cases after with
    | nil =>
      refine hne ?_
      rw [Token.variableName?, if_pos hkind.symm, hcw, List.drop_one, List.tail_cons,
        List.append_nil, String.ofList_toList]
    | cons e after =>
      have he := count_eq_length_iff.1 (Nat.succ.inj hcount) e (by simp)
      rw [hafter e rfl] at he
      cases he

/-- Code without a variable, whose strings satisfy `P`, as do the texts of its tokens written without
spaces. -/
structure Silent (v : String) (P : String → Prop) (ts : Run) : Prop where
  stands : ts.Standing
  isDoc : ∀ t ∈ ts, t.isDoc = false
  absent : ∀ t ∈ ts, t.variableName? ≠ some v
  string : ∀ t ∈ ts, t.kind = .string → P t.text
  joined : ∀ us : Run, us.Sublist ts → 1 < us.length → P us.join

namespace Silent

variable {v : String} {P : String → Prop} {ts us : Run}

theorem mono (h : Silent v P ts) (hus : us.Sublist ts) : Silent v P us where
  stands := Run.Standing.hereditary h.stands hus
  isDoc := fun t ht => h.isDoc t (hus.subset ht)
  absent := fun t ht => h.absent t (hus.subset ht)
  string := fun t ht => h.string t (hus.subset ht)
  joined := fun ws hws => h.joined ws (hws.trans hus)

theorem text (hv : IsVariableName v) (h : Silent v P ts) {t : Placed} (ht : t ∈ ts) :
    MentionsOnlyIn v P t.text := by
  by_cases hstring : t.kind = .string
  · exact .piece (h.string t ht hstring)
  · refine .none ((h.stands t ht).not_mentions hstring (fun hdoc => ?_) hv (h.absent t ht))
    have hcode := h.isDoc t ht
    rw [Token.isDoc, hdoc] at hcode
    cases hcode

/-- What is printed of such code, with any class name for its calls, mentions the variable in those
texts only. -/
theorem closed {q : Qualifier} (hv : IsVariableName v) (hq : P q.className) :
    Print.Closed (Silent v P) q (MentionsOnlyIn v P) where
  hereditary := fun _ _ h hus => h.mono hus
  className := .piece hq
  own := fun j hj => .plain ((by decide : ∀ j ∈ Print.ownTexts, '$' ∉ j.toList) j hj)
  append := fun hs ht hapart => by
    have hall : ('$' :: Print.ownMarks).all (!isNameChar ·) = true := by decide
    have hmarks : ∀ c ∈ '$' :: Print.ownMarks, isNameChar c = false := fun c hc => by
      simpa using List.all_eq_true.1 hall c hc
    refine hs.append hv ht (hapart.imp (fun h c hc => ⟨?_, ?_⟩) fun h c hc => hmarks c (h c hc))
    · rintro rfl
      exact absurd (h _ hc) (by decide)
    · exact hmarks c (List.mem_cons_of_mem _ (h c hc))
  hasVariable := fun {ts name} h hname => by
    refine .none ((h.stands.stands_variable hname).not_mentions nofun nofun hv ?_)
    obtain ⟨t, ht, htext⟩ := hname
    rw [Token.variableName?, if_pos rfl, String.toList_append]
    refine fun heq => h.absent t ht ?_
    rw [htext, ← heq]
    simp
  hasName := fun h hname => by
    obtain ⟨t, ht, htext⟩ := hname
    exact (Token.name?_eq_some_iff.1 htext).2 ▸ h.text hv ht
  text := fun h ht => h.text hv ht
  join := fun {ts} h => by
    rcases Nat.lt_or_ge 1 ts.length with hlt | hle
    · exact .piece (h.joined ts (List.Sublist.refl ts) hlt)
    · cases ts with
      | nil => exact .plain (by decide)
      | cons t ts =>
        obtain rfl : ts = [] := List.eq_nil_of_length_eq_zero (by simpa using hle)
        have hjoin : Run.join [t] = t.text := by simp [Run.join]
        rw [hjoin]
        exact h.text hv List.mem_cons_self

end Silent

/-! ## What rows stand for -/

/-- An assignment and the assertion about its variable that takes its place. -/
structure Fold where
  assignment : Stmt
  assertion : Stmt
  target : String
  value : Expr
  expected : Expr

/-- What a row shows: a statement, or such an assertion. -/
inductive Shown
  | kept (s : Stmt)
  | folded (fold : Fold)

namespace Examples

/-- The assertion is about the variable that is assigned. -/
structure IsFold (fold : Fold) : Prop where
  assigns : fold.assignment.form = .expr (.assign fold.target fold.value)
  asserts : assertion? fold.assertion = some (fold.expected, .variable fold.target)

end Examples

namespace Shown

/-- The statements that the row stands for. -/
def statements : Shown → List Stmt
  | kept s => [s]
  | folded fold => [fold.assignment, fold.assertion]

/-- The row itself. After a fold it shows the assigned value as the actual one. -/
def row (q : Qualifier) : Shown → String
  | kept s => Examples.row q s
  | folded fold => Examples.assertionRow q fold.expected fold.value

/-- The texts that the row may copy as they are: the name of the class, the strings of its statements,
and their tokens without the spaces, as types are written. -/
inductive Copies (q : Qualifier) (y : Shown) : String → Prop
  | className : Copies q y q.className
  | string {s : Stmt} {t : Placed} : s ∈ y.statements → t ∈ s.tokens → t.kind = .string →
      Copies q y t.text
  | joined {s : Stmt} {ts : Run} : s ∈ y.statements → ts.Sublist s.tokens → 1 < ts.length →
      Copies q y ts.join

theorem closed_row {S : Run → Prop} {q : Qualifier} {W : String → Prop} (hW : Print.Closed S q W)
    {y : Shown} (hs : ∀ s ∈ y.statements, s.From S)
    (hfold : ∀ fold, y = folded fold → Examples.IsFold fold) : W (y.row q) := by
  cases y with
  | kept s => exact Examples.closed_row hW (hs s List.mem_cons_self)
  | folded fold =>
    obtain ⟨hassigns, hasserts⟩ := hfold fold rfl
    have hvalue := ((hs _ List.mem_cons_self).expr hW.hereditary hassigns).assigned hW.hereditary
    have hexpected := (Examples.from_assertion? hW.hereditary (hs fold.assertion (by simp [statements]))
      hasserts).1
    exact Examples.closed_assertionRow hW hexpected hvalue

end Shown

namespace Examples

/-- The rows stand for the statements in order. Two of them share a row only where the second asserts
something about the variable that the first assigns, and no later statement has the variable. -/
theorem exists_shown (q : Qualifier) (ss : List Stmt) :
    ∃ shown : List Shown, shown.flatMap (·.statements) = ss ∧ rowsOf q ss = shown.map (·.row q) ∧
      ∀ fold later, .folded fold :: later <:+ shown →
        IsFold fold ∧ occursIn fold.target (later.flatMap (·.statements)) = false := by
  -- a fold at the head of what is added, or further back
  have hcons {y : Shown} {shown : List Shown} {C : Fold → List Shown → Prop}
      (hfirst : ∀ fold, y = .folded fold → C fold shown)
      (hrest : ∀ fold later, .folded fold :: later <:+ shown → C fold later) :
      ∀ fold later, .folded fold :: later <:+ y :: shown → C fold later := by
    intro fold later hsuffix
    rcases List.suffix_cons_iff.1 hsuffix with heq | hsuffix
    · obtain ⟨rfl, rfl⟩ := List.cons.inj heq
      exact hfirst fold rfl
    · exact hrest fold later hsuffix
  fun_induction rowsOf q ss with
  | case1 => exact ⟨[], rfl, rfl, fun _ _ h => absurd (List.suffix_nil.1 h) (List.cons_ne_nil _ _)⟩
  | case2 s =>
    refine ⟨[.kept s], rfl, rfl, hcons (fun _ h => Shown.noConfusion h) fun _ _ h => ?_⟩
    exact absurd (List.suffix_nil.1 h) (List.cons_ne_nil _ _)
  | case3 s next later text hfolded ih =>
    obtain ⟨shown, hstatements, hrows, hfolds⟩ := ih
    unfold foldedRow? at hfolded
    split at hfolded
    · rename_i target value expected name hform hassertion
      split at hfolded
      · rename_i hunused
        obtain ⟨rfl, hunused⟩ := hunused
        cases hfolded
        refine ⟨.folded ⟨s, next, name, value, expected⟩ :: shown, ?_, ?_, hcons ?_ hfolds⟩
        · rw [List.flatMap_cons, hstatements]
          rfl
        · rw [hrows]
          rfl
        · rintro fold ⟨⟩
          exact ⟨⟨hform, hassertion⟩, by rw [hstatements]; simpa using hunused⟩
      · cases hfolded
    · cases hfolded
  | case4 s next later _ ih =>
    obtain ⟨shown, hstatements, hrows, hfolds⟩ := ih
    refine ⟨.kept s :: shown, ?_, ?_, hcons (fun _ h => Shown.noConfusion h) hfolds⟩
    · rw [List.flatMap_cons, hstatements]
      rfl
    · rw [hrows]
      rfl

/-- A variable is shown whose assignment is not: in what the assertion expects, or in a later row. -/
def Dangles (q : Qualifier) (fold : Fold) (later : List Shown) : Prop :=
  Mentions fold.target (fold.expected.print (some q)) ∨
    ∃ y ∈ later, Mentions fold.target (y.row q)

/-- **Rows stand for the statements of an example method, in order and each of them.** An assignment
has no row only where the assertion about its variable that follows directly shows the assigned value
in its place, and no later statement has the variable. Then the variable is shown without an
assignment just when the expected value of that assertion mentions it, which nothing excludes, or when
a later row does so in a text that it copies as it is. -/
theorem customRows_shown {x : Examples} (hx : x.examples.IsRead) {f : TemplateFunction}
    {m : MethodDecl} (hm : x.examples.method? ("test" ++ f.capitalizedName) = some m) :
    ∃ shown : List Shown, shown.flatMap (·.statements) = m.statements ∧
      x.customRows f = shown.map (·.row x.qualifier) ∧
      ∀ fold later, .folded fold :: later <:+ shown →
        IsFold fold ∧
        (∀ s ∈ later.flatMap (·.statements), ∀ t ∈ s.tokens, t.variableName? ≠ some fold.target) ∧
        (Dangles x.qualifier fold later ↔
          Mentions fold.target (fold.expected.print (some x.qualifier)) ∨
          ∃ y ∈ later, MentionsIn fold.target (y.Copies x.qualifier) (y.row x.qualifier)) := by
  obtain ⟨shown, hstatements, hrows, hfolds⟩ := exists_shown x.qualifier m.statements
  have hcustom : x.customRows f = shown.map (·.row x.qualifier) := by
    rw [customRows, hm]
    exact hrows
  refine ⟨shown, hstatements, hcustom, fun fold later hsuffix => ?_⟩
  obtain ⟨hfold, hunused⟩ := hfolds fold later hsuffix
  have hmem {y : Shown} (hy : y ∈ .folded fold :: later) {s : Stmt} (hs : s ∈ y.statements) :
      s ∈ m.statements := by
    rw [← hstatements]
    exact List.mem_flatMap.2 ⟨y, hsuffix.subset hy, hs⟩
  have hdeclared := List.mem_of_find?_eq_some hm
  have habsent : ∀ s ∈ later.flatMap (·.statements), ∀ t ∈ s.tokens,
      t.variableName? ≠ some fold.target := by
    intro s hs t ht heq
    unfold occursIn at hunused
    rw [List.any_eq_false] at hunused
    refine hunused s hs (List.any_eq_true.2 ⟨t, ht, ?_⟩)
    rw [Bool.and_eq_true, beq_iff_eq]
    refine ⟨?_, heq⟩
    unfold Token.variableName? at heq
    split at heq
    · rename_i hkind
      rw [Token.isVariable, hkind]
      rfl
    · cases heq
  -- the target is a variable of the code that was read
  have hname : IsVariableName fold.target := by
    have hfrom : fold.assignment.From Run.Standing :=
      hx.statement_from hdeclared (hmem List.mem_cons_self (by simp [Shown.statements]))
        fun htokens t ht => (htokens t ht).1
    obtain ⟨ts, hts, hvariable⟩ :=
      (hfrom.expr Run.Standing.hereditary hfold.assigns).target
    exact isVariableName_of_stands (hts.stands_variable hvariable)
  refine ⟨hfold, habsent, or_congr_right (exists_congr fun y => and_congr_right fun hy => ?_)⟩
  constructor
  · rintro ⟨before, after, hmentioned⟩
    have hclosed : Print.Closed (Silent fold.target (y.Copies x.qualifier)) x.qualifier
        (MentionsOnlyIn fold.target (y.Copies x.qualifier)) := Silent.closed hname .className
    have honly := Shown.closed_row hclosed (y := y) (fun s hs => ?_) fun fold' heq => ?_
    · exact ⟨before, after, hmentioned, honly before after hmentioned⟩
    · refine hx.statement_from hdeclared (hmem (List.mem_cons_of_mem _ hy) hs) fun htokens => ?_
      exact
        { stands := fun t ht => (htokens t ht).1
          isDoc := fun t ht => (htokens t ht).2
          absent := fun t ht => habsent s (List.mem_flatMap.2 ⟨y, hy, hs⟩) t ht
          string := fun t ht hkind => .string hs ht hkind
          joined := fun us hus hlt => .joined hs hus hlt }
    · obtain ⟨front, rest, rfl⟩ := List.append_of_mem hy
      refine (hfolds fold' rest (List.IsSuffix.trans ?_ hsuffix)).1
      rw [heq]
      exact ⟨.folded fold :: front, by simp⟩
  · rintro ⟨before, after, hmentioned, -⟩
    exact ⟨before, after, hmentioned⟩

end Examples

/-- A class with an example method that assigns a variable and compares it with itself. -/
theorem ClassDecl.exists_folding : ∃ s next : Stmt,
    s.form = .expr (.assign "v" (.literal (.int 1) "1")) ∧
    next.form = .expr (.call (.function "assertSame") [.variable "v", .variable "v"]) ∧
    ClassDecl.IsRead { name := "E", methods := [{ name := "testF", body := some [s, next] }] } := by
  let text := "class E\x7bfunction testF()\x7b$v=1;assertSame($v,$v);\x7d\x7d"
  let value : Run := [⟨⟨.int, "1"⟩, 28⟩]
  let assigning : Run := [⟨⟨.variable, "$v"⟩, 25⟩, ⟨.symbol "=", 27⟩] ++ value ++ [⟨.symbol ";", 29⟩]
  let left : Run := [⟨⟨.variable, "$v"⟩, 41⟩]
  let right : Run := [⟨⟨.variable, "$v"⟩, 44⟩]
  let asserting : Run := [⟨⟨.name, "assertSame"⟩, 30⟩, ⟨.symbol "(", 40⟩] ++ left ++
    [⟨.symbol ",", 43⟩] ++ right ++ [⟨.symbol ")", 46⟩, ⟨.symbol ";", 47⟩]
  let first : Placed := ⟨⟨.name, "class"⟩, 0⟩
  let rest : Run :=
    [⟨⟨.name, "E"⟩, 6⟩, ⟨.symbol "\x7b", 7⟩, ⟨⟨.name, "function"⟩, 8⟩, ⟨⟨.name, "testF"⟩, 17⟩,
      ⟨.symbol "(", 22⟩, ⟨.symbol ")", 23⟩, ⟨.symbol "\x7b", 24⟩] ++ (assigning ++ asserting) ++
    [⟨.symbol "\x7d", 48⟩, ⟨.symbol "\x7d", 49⟩]
  have hscan : scan text.toList = .ok (first :: rest) := by cbv
  have hclass (ctx : Declaration.Context) : Declaration.readClass ctx .regular first rest = .ok
      ({ name := "E", methods :=
        [{ name := "testF", body := some (readStatements ctx.source (assigning ++ asserting)) }] },
        []) := by
    cbv
  have hstatements : readStatements text.toList (assigning ++ asserting) =
      [readStatement text.toList assigning, readStatement text.toList asserting] := by
    have hsplit : Statement.split (assigning ++ asserting) = [assigning, asserting] := by
      decide +kernel
    rw [readStatements_eq_map, hsplit, List.map_cons, List.map_singleton]
  refine ⟨readStatement text.toList assigning, readStatement text.toList asserting, ?_, ?_,
    ⟨"e.php"⟩, text, ⟨none, [], [_]⟩, ?_, List.mem_singleton.2 rfl⟩
  · have hclassify : Statement.classify assigning.code = .expr assigning.dropLast := by cbv
    have hassign : Shape.of assigning.dropLast = .assign "v" value := by cbv
    have hliteral : Shape.of value = .literal (.int 1) "1" := by cbv
    rw [form_readStatement, hclassify]
    simp only [readExpr_eq, hassign, hliteral]
  · have hclassify : Statement.classify asserting.code = .expr asserting.dropLast := by cbv
    have hcall : Shape.of asserting.dropLast = .call (.function "assertSame") [left, right] := by
      cbv
    have hvariable : Shape.of left = .variable "v" ∧ Shape.of right = .variable "v" := by
      constructor <;> cbv
    rw [form_readStatement, hclassify]
    simp only [readExpr_eq, hcall, hvariable, List.map_cons, List.map_nil]
  · rw [← hstatements]
    exact SourceFile.read_class hscan rfl fun last => hclass ⟨text.toList, last⟩

/-- The assertion expects the variable itself, and takes the place of its assignment. -/
theorem Examples.customRows_shown_same :
    ∃ (x : Examples) (f : TemplateFunction) (fold : Fold), x.examples.IsRead ∧
      x.customRows f = ["1; // => $v"] ∧ IsFold fold ∧ Dangles x.qualifier fold [] := by
  obtain ⟨s, next, hs, hnext, hread⟩ := ClassDecl.exists_folding
  let m : MethodDecl := { name := "testF", body := some [s, next] }
  let x : Examples := ⟨⟨[], {}, List.nodup_nil⟩, { name := "E", methods := [m] }, none, "P"⟩
  let f : TemplateFunction := ⟨{ name := "f" }⟩
  have hasserts : assertion? next = some (.variable "v", .variable "v") := by
    rw [assertion?, hnext]
    rfl
  have hrows : x.customRows f = ["1; // => $v"] := by
    have hmethod : x.customRows f = rowsOf x.qualifier [s, next] := by cbv
    have hfolded : foldedRow? x.qualifier s next [] = some "1; // => $v" := by
      rw [foldedRow?, hs, hasserts]
      rfl
    rw [hmethod, rowsOf, hfolded]
    rfl
  obtain ⟨shown, hstatements, hcustom, hfolds⟩ :=
    customRows_shown (x := x) (f := f) hread (m := m) (by cbv)
  have hone : shown.length = 1 := by
    rw [← List.length_map, ← hcustom, hrows]
    rfl
  obtain ⟨y, rfl⟩ := List.length_eq_one_iff.1 hone
  have hy : y.statements = [s, next] := by
    rw [List.flatMap_singleton] at hstatements
    exact hstatements
  cases y with
  | kept t => cases hy
  | folded fold =>
    obtain ⟨hfold, -, hdangles⟩ := hfolds fold [] (List.suffix_refl _)
    refine ⟨x, f, fold, hread, hrows, hfold, hdangles.2 (.inl ?_)⟩
    obtain rfl : fold.assertion = next := (List.cons.inj (List.cons.inj hy).2).1
    obtain ⟨hexpected, htarget⟩ := Prod.mk.inj (Option.some.inj (hasserts.symm.trans hfold.asserts))
    obtain hname : "v" = fold.target := Expr.variable.inj htarget
    rw [← hexpected, ← hname, Expr.print]
    exact ⟨[], [], by decide, fun _ h => absurd h (Option.not_mem_none _)⟩

end CurryGen

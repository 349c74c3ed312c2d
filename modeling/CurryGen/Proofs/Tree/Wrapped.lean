import CurryGen.Proofs.Tree.Lines
import CurryGen.Tree.Print

/-!
# A block in a call

The statement `return static::curry(n, function (params) { body }, func_get_args());`, with balanced
tokens for the parameters and the body, is read as one statement: a call with a closure of these
parameters and this body.

* `wrapped`: the tokens of the statement.
* `readExpr_single`, `readExpr_negated`: what is read from a number or a string alone.
* `Expr.IsCount`: an expression that is a count.
* `readStatements_wrapped`: how the tokens are read.
-/

namespace CurryGen

open Run Token

/-! ## Tokens -/

def funcGetArgs : List Token := [⟨.name, "func_get_args"⟩, .symbol "(", .symbol ")"]

/-- `function (params) { body }` -/
def wrappedClosure (params body : List Token) : List Token :=
  ⟨.name, "function"⟩ :: .symbol "(" ::
    (params ++ .symbol ")" :: .symbol "\x7b" :: (body ++ [.symbol "\x7d"]))

/-- `n, function (params) { body }, func_get_args()` -/
def wrappedArguments (n : Nat) (params body : List Token) : List Token :=
  ⟨.int, toString n⟩ :: .symbol "," :: (wrappedClosure params body ++ .symbol "," :: funcGetArgs)

/-- `static::curry(args)` -/
def staticCall (curry : String) (args : List Token) : List Token :=
  ⟨.name, "static"⟩ :: .symbol "::" :: ⟨.name, curry⟩ :: .symbol "(" :: (args ++ [.symbol ")"])

/-- `return static::curry(n, function (params) { body }, func_get_args());` -/
def wrapped (curry : String) (n : Nat) (params body : List Token) : List Token :=
  ⟨.name, "return"⟩ :: (staticCall curry (wrappedArguments n params body) ++ [.symbol ";"])

/-- The tokens before the body. -/
def beforeBody (curry : String) (n : Nat) (params : List Token) : List Token :=
  ⟨.name, "return"⟩ :: ⟨.name, "static"⟩ :: .symbol "::" :: ⟨.name, curry⟩ :: .symbol "(" ::
    ⟨.int, toString n⟩ :: .symbol "," :: ⟨.name, "function"⟩ :: .symbol "(" ::
      (params ++ [.symbol ")", .symbol "\x7b"])

/-- The tokens after the body. -/
def afterBody : List Token :=
  .symbol "\x7d" :: .symbol "," :: (funcGetArgs ++ [.symbol ")", .symbol ";"])

theorem wrapped_eq (curry : String) (n : Nat) (params body : List Token) :
    wrapped curry n params body = beforeBody curry n params ++ body ++ afterBody := by
  simp [wrapped, staticCall, wrappedArguments, wrappedClosure, beforeBody, afterBody]

theorem piece_staticCall {curry : String} {args : List Token} (h : balanced 0 args = true) :
    Piece ";" (staticCall curry args) := by
  have hscope : Piece ";" [⟨.name, "static"⟩, .symbol "::", ⟨.name, curry⟩] := ⟨rfl, rfl⟩
  exact hscope.append (.group rfl rfl h)

section

variable {params body : List Token} (hparams : balanced 0 params = true)
  (hbody : balanced 0 body = true)

include hparams hbody

theorem piece_wrappedClosure {text : String} : Piece text (wrappedClosure params body) := by
  have hkeyword : Piece text [⟨.name, "function"⟩] := .singleton rfl rfl rfl
  have hgroups : Piece text (.symbol "(" :: (params ++ [.symbol ")"]) ++
      .symbol "\x7b" :: (body ++ [.symbol "\x7d"])) :=
    (Piece.group rfl rfl hparams).append (.group rfl rfl hbody)
  have hall := hkeyword.append hgroups
  simpa [wrappedClosure] using hall

theorem balanced_wrappedArguments (n : Nat) :
    balanced 0 (wrappedArguments n params body) = true := by
  have hstart (ts : List Token) :
      balanced 0 (⟨.int, toString n⟩ :: .symbol "," :: ts) = balanced 0 ts := rfl
  have hclosure : Piece "," (wrappedClosure params body) := piece_wrappedClosure hparams hbody
  rw [wrappedArguments, hstart, balanced_append hclosure.balanced 0]
  rfl

end

theorem filter_code_staticCall (curry : String) (n : Nat) (params body : List Token) :
    (staticCall curry (wrappedArguments n params body)).filter (!·.isDoc) =
      staticCall curry
        (wrappedArguments n (params.filter (!·.isDoc)) (body.filter (!·.isDoc))) := by
  simp [staticCall, wrappedArguments, wrappedClosure, funcGetArgs, isDoc, symbol]

/-! ## Runs -/

theorem Run.parens?_append {inner : Run} (h : balanced 0 inner.tokens = true) (i j : Nat)
    (rest : Run) :
    parens? (⟨.symbol "(", i⟩ :: (inner ++ ⟨.symbol ")", j⟩ :: rest)) = some (inner, rest) := by
  have hstart (ts : Run) : startsWith "(" (⟨.symbol "(", i⟩ :: ts) = true := rfl
  rw [parens?, if_pos (hstart _)]
  exact group?_eq_some_iff.2 ⟨_, _, rfl, rfl, rfl, h⟩

namespace Shape

theorem assignment?_eq_none {t u : Placed} (h : u.isSymbol "=" = false) (ts : Run) :
    assignment? (t :: u :: ts) = none := by
  cases ts with
  | nil => rfl
  | cons v ts => rw [assignment?, if_neg (by simp [h])]

/-- The tokens of a closure have its shape. -/
theorem of_closure {ts : Run} {params body : List Token} (hparams : balanced 0 params = true)
    (hbody : balanced 0 body = true) (h : ts.tokens = wrappedClosure params body) :
    ∃ inner block : Run, inner.tokens = params ∧ block.tokens = body ∧
      Shape.of ts = .block ⟨false, Param.listOfRun inner, [], none⟩ block := by
  obtain ⟨i, ts, rfl, h₁⟩ := exists_cons_of_tokens h
  obtain ⟨j, ts, rfl, h₂⟩ := exists_cons_of_tokens h₁
  obtain ⟨inner, ts, rfl, rfl, h₃⟩ := exists_append_of_tokens h₂
  obtain ⟨k, ts, rfl, h₄⟩ := exists_cons_of_tokens h₃
  obtain ⟨l, ts, rfl, h₅⟩ := exists_cons_of_tokens h₄
  obtain ⟨block, ts, rfl, rfl, h₆⟩ := exists_append_of_tokens h₅
  obtain ⟨m, ts, rfl, h₇⟩ := exists_cons_of_tokens h₆
  obtain rfl := List.map_eq_nil_iff.1 h₇
  refine ⟨inner, block, rfl, rfl, ?_⟩
  have hstart (rest : Run) :
      closureStart? (⟨⟨.name, "function"⟩, i⟩ :: rest) = some (false, false, rest) := by cbv
  have hclosure : closure? (⟨⟨.name, "function"⟩, i⟩ :: ⟨.symbol "(", j⟩ :: (inner ++
      ⟨.symbol ")", k⟩ :: ⟨.symbol "\x7b", l⟩ :: (block ++ [⟨.symbol "\x7d", m⟩]))) =
      some (.block ⟨false, Param.listOfRun inner, [], none⟩ block) := by
    have hgroup : group? (⟨.symbol "\x7b", l⟩ :: (block ++ [⟨.symbol "\x7d", m⟩])) =
        some (block, []) := group?_eq_some_iff.2 ⟨_, _, rfl, rfl, rfl, hbody⟩
    have huses (rest : Run) :
        uses? false (⟨.symbol "\x7b", l⟩ :: rest) = some ([], ⟨.symbol "\x7b", l⟩ :: rest) := rfl
    have htype (rest : Run) :
        returnType? (⟨.symbol "\x7b", l⟩ :: rest) = some (none, ⟨.symbol "\x7b", l⟩ :: rest) := rfl
    have hreference (rest : Run) : startsWith "&" (⟨.symbol "(", j⟩ :: rest) = false := rfl
    have hbrace (rest : Run) : startsWith "\x7b" (⟨.symbol "\x7b", l⟩ :: rest) = true := rfl
    simp only [closure?, hstart, hreference, parens?_append hparams, huses, htype, closureBody?,
      hbrace, hgroup, if_true, Bool.false_eq_true, if_false]
  rw [Shape.of, assignment?_eq_none rfl, hclosure]
  rfl

/-- The tokens of a call without arguments have its shape. -/
theorem of_funcGetArgs {ts : Run} (h : ts.tokens = funcGetArgs) :
    Shape.of ts = .call (.function "func_get_args") [] := by
  obtain ⟨i, ts, rfl, h₁⟩ := exists_cons_of_tokens h
  obtain ⟨j, ts, rfl, h₂⟩ := exists_cons_of_tokens h₁
  obtain ⟨k, ts, rfl, h₃⟩ := exists_cons_of_tokens h₂
  obtain rfl := List.map_eq_nil_iff.1 h₃
  cbv

/-- The tokens of a static call have its shape. -/
theorem of_staticCall {ts : Run} {curry : String} {args : List Token}
    (hargs : balanced 0 args = true) (h : ts.tokens = staticCall curry args) :
    ∃ inner : Run, inner.tokens = args ∧
      Shape.of ts = .call (.static "static" curry) (inner.splitTopLevel ",") := by
  obtain ⟨i, ts, rfl, h₁⟩ := exists_cons_of_tokens h
  obtain ⟨j, ts, rfl, h₂⟩ := exists_cons_of_tokens h₁
  obtain ⟨k, ts, rfl, h₃⟩ := exists_cons_of_tokens h₂
  obtain ⟨l, ts, rfl, h₄⟩ := exists_cons_of_tokens h₃
  obtain ⟨inner, ts, rfl, rfl, h₅⟩ := exists_append_of_tokens h₄
  obtain ⟨m, ts, rfl, h₆⟩ := exists_cons_of_tokens h₅
  obtain rfl := List.map_eq_nil_iff.1 h₆
  refine ⟨inner, rfl, ?_⟩
  -- `static` also begins closures, but `::` does not go on with one
  have hclosure (rest : Run) :
      closure? (⟨⟨.name, "static"⟩, i⟩ :: ⟨.symbol "::", j⟩ :: rest) = none := by cbv
  have harray (rest : Run) :
      array? (⟨⟨.name, "static"⟩, i⟩ :: ⟨.symbol "::", j⟩ :: rest) = none := by cbv
  have hnew : isKeyword "new" ⟨.name, "static"⟩ = false := by decide +kernel
  have hfunction (rest : Run) : arguments? (⟨.symbol "::", j⟩ :: rest) = none := rfl
  have hcall : call? (⟨⟨.name, "static"⟩, i⟩ :: ⟨.symbol "::", j⟩ :: ⟨⟨.name, curry⟩, k⟩ ::
      ⟨.symbol "(", l⟩ :: (inner ++ [⟨.symbol ")", m⟩])) =
      some (.call (.static "static" curry) (inner.splitTopLevel ",")) := by
    have hmember (rest : Run) : member? "::" (.static "static") (⟨.symbol "::", j⟩ ::
        ⟨⟨.name, curry⟩, k⟩ :: rest) = (arguments? rest).map (.call (.static "static" curry)) := rfl
    have hinner : arguments? (⟨.symbol "(", l⟩ :: (inner ++ [⟨.symbol ")", m⟩])) =
        some (inner.splitTopLevel ",") := by rw [arguments?, parens?_append hargs]
    simp only [call?, hnew, hfunction, hmember, hinner, Bool.false_eq_true, if_false,
      Option.map_some]
  rw [Shape.of, assignment?_eq_none rfl, hclosure, harray, hcall]
  rfl

end Shape

/-- The arguments of the call. -/
theorem Run.splitTopLevel_wrappedArguments {ts : Run} {n : Nat} {params body : List Token}
    (hparams : balanced 0 params = true) (hbody : balanced 0 body = true)
    (h : ts.tokens = wrappedArguments n params body) :
    ∃ count closure call : Run, count.tokens = [⟨.int, toString n⟩] ∧
      closure.tokens = wrappedClosure params body ∧ call.tokens = funcGetArgs ∧
      ts.splitTopLevel "," = [count, closure, call] := by
  have hpieces : ∀ p ∈ [[⟨.int, toString n⟩], wrappedClosure params body, funcGetArgs],
      Piece "," p := by
    have hcount : Piece "," [⟨.int, toString n⟩] := .singleton rfl rfl rfl
    simp only [List.forall_mem_cons]
    exact ⟨hcount, piece_wrappedClosure hparams hbody, ⟨rfl, rfl⟩, by simp⟩
  have hjoined : ts.tokens = [.symbol ","].intercalate
      [[⟨.int, toString n⟩], wrappedClosure params body, funcGetArgs] := by
    simpa [List.intercalate_cons_cons, wrappedArguments] using h
  have hsplit := map_tokens_splitTopLevel rfl hpieces (by simp [funcGetArgs]) hjoined
  obtain ⟨count, rest, heq, hcount, hrest⟩ := List.map_eq_cons_iff.1 hsplit
  obtain ⟨closure, rest, rfl, hclosure, hrest⟩ := List.map_eq_cons_iff.1 hrest
  obtain ⟨call, rest, rfl, hcall, hnil⟩ := List.map_eq_cons_iff.1 hrest
  obtain rfl := List.map_eq_nil_iff.1 hnil
  exact ⟨count, closure, call, hcount, hclosure, hcall, heq⟩

/-! ## Numbers and strings -/

section

variable {source : List Char} {t : Token}

/-- The literal `value?`, which is written as `text`, or the tokens `ts` if there is none. -/
def Expr.literalOrRaw (value? : Option Literal) (text : String) (ts : List Token) : Expr :=
  value?.elim (.raw ts) (.literal · text)

theorem readExpr_single (ht : t.kind = .int ∨ t.kind = .string) (i : Nat) :
    readExpr source [⟨t, i⟩] = .literalOrRaw (Literal.ofToken? t) t.text [t] := by
  have hname : t.kind ≠ .name ∧ t.kind ≠ .variable ∧ t.kind ≠ .symbol := by
    rcases ht with ht | ht <;> simp [ht]
  have hclosure : Shape.closure? [⟨t, i⟩] = none := by
    simp [Shape.closure?, Shape.closureStart?, Token.isKeyword, Token.isKeywordIn, hname.1]
  have harray : Shape.array? [⟨t, i⟩] = none := by
    simp [Shape.array?, Shape.arrayGroup?, Run.startsWith, Token.isSymbol, Token.isKeyword,
      Token.isKeywordIn, hname.1, hname.2.2]
  have hafter : Shape.call? [⟨t, i⟩] = none ∧ Shape.variableName? [⟨t, i⟩] = none := by
    rcases ht with ht | ht <;>
      simp [Shape.call?, Shape.variableName?, Token.isKeyword, Token.isKeywordIn,
        Token.variableName?, ht]
  have hshape : Shape.of [⟨t, i⟩] = (Shape.literal? [⟨t, i⟩]).getD .raw := by
    have hassign : Shape.assignment? [⟨t, i⟩] = none := rfl
    rw [Shape.of, hassign, hclosure, harray, hafter.1, hafter.2]
    cases Shape.literal? [⟨t, i⟩] <;> rfl
  rw [readExpr_eq, hshape, Shape.literal?, Literal.ofRun?]
  cases Literal.ofToken? t <;> rfl

theorem readExpr_negated (i j : Nat) :
    readExpr source [⟨.symbol "-", i⟩, ⟨t, j⟩] =
      .literalOrRaw (Literal.ofNegated? t) ("-" ++ t.text) [.symbol "-", t] := by
  have hshape : Shape.of [⟨.symbol "-", i⟩, ⟨t, j⟩] =
      (Shape.literal? [⟨.symbol "-", i⟩, ⟨t, j⟩]).getD .raw := by
    have hother : Shape.assignment? [⟨.symbol "-", i⟩, ⟨t, j⟩] = none ∧
        Shape.closure? [⟨.symbol "-", i⟩, ⟨t, j⟩] = none ∧
        Shape.array? [⟨.symbol "-", i⟩, ⟨t, j⟩] = none ∧
        Shape.call? [⟨.symbol "-", i⟩, ⟨t, j⟩] = none ∧
        Shape.variableName? [⟨.symbol "-", i⟩, ⟨t, j⟩] = none := ⟨rfl, rfl, rfl, rfl, rfl⟩
    obtain ⟨hassign, hclosure, harray, hcall, hvariable⟩ := hother
    rw [Shape.of, hassign, hclosure, harray, hcall, hvariable]
    cases Shape.literal? [⟨.symbol "-", i⟩, ⟨t, j⟩] <;> rfl
  have hsign : (Token.symbol "-").isSymbol "-" = true := rfl
  rw [readExpr_eq, hshape, Shape.literal?]
  simp only [Literal.ofRun?, hsign, if_true]
  cases Literal.ofNegated? t <;> rfl

end

/-! ## Counts -/

/-- An expression that is this count. Beyond 64 bits a count is no literal. -/
def Expr.IsCount (n : Nat) (e : Expr) : Prop :=
  e = .literal (.int n) (toString n) ∨ Number.maxInt < n ∧ e = .raw [⟨.int, toString n⟩]

namespace Number

theorem digitValue?_of_isDigit {c : Char} (h : c.isDigit = true) :
    digitValue? c = some (c.toNat - '0'.toNat) := by
  have hrange : '0' ≤ c ∧ c ≤ '9' := by
    simpa [Char.isDigit, Char.le_def] using h
  rw [digitValue?, if_pos hrange]

theorem ofDigits_toDigits (n : Nat) : ofDigits 10 (Nat.toDigits 10 n) = n := by
  have hdigits {cs : List Char} (h : ∀ c ∈ cs, c.isDigit = true) (init : Nat) :
      cs.foldl (fun n c => 10 * n + (digitValue? c).getD 0) init = Nat.ofDigitChars 10 cs init := by
    induction cs generalizing init with
    | nil => rfl
    | cons c cs ih =>
      obtain ⟨hc, hcs⟩ := List.forall_mem_cons.1 h
      rw [List.foldl_cons, ih hcs, Nat.ofDigitChars_cons, digitValue?_of_isDigit hc,
        Option.getD_some]
  rw [ofDigits, hdigits fun c hc => Nat.isDigit_of_mem_toDigits (by decide) (by decide) hc,
    Nat.ofDigitChars_ten_toDigits]

theorem ofLiteral?_digits {cs : List Char} (h : ∀ c ∈ cs, c.isDigit = true) :
    ofLiteral? cs = if (ofDigits 10 cs : Int) ≤ maxInt then some (ofDigits 10 cs : Int) else none := by
  unfold ofLiteral?
  extract_lets value
  have hvalue : value = ofDigits 10 cs := by
    unfold value
    split
    · exact absurd (h 'x' (by simp)) (by decide)
    · exact absurd (h 'X' (by simp)) (by decide)
    · rfl
  rw [hvalue]

theorem ofLiteral?_toString (n : Nat) :
    ofLiteral? (toString n).toList = if (n : Int) ≤ maxInt then some (n : Int) else none := by
  have htext : (toString n).toList = Nat.toDigits 10 n := Nat.toList_repr
  have hdigit : ∀ c ∈ Nat.toDigits 10 n, c.isDigit = true := fun _ hc =>
    Nat.isDigit_of_mem_toDigits (by decide) (by decide) hc
  rw [htext, ofLiteral?_digits hdigit, ofDigits_toDigits]

end Number

theorem readExpr_count {source : List Char} {ts : Run} {n : Nat}
    (h : ts.tokens = [⟨.int, toString n⟩]) : (readExpr source ts).IsCount n := by
  obtain ⟨i, ts, rfl, h₁⟩ := exists_cons_of_tokens h
  obtain rfl := List.map_eq_nil_iff.1 h₁
  rw [readExpr_single (.inl rfl), Literal.ofToken?]
  simp only [Number.ofLiteral?_toString]
  by_cases hle : (n : Int) ≤ Number.maxInt
  · rw [if_pos hle]
    exact .inl rfl
  · rw [if_neg hle]
    exact .inr ⟨by omega, rfl⟩

/-! ## The statement -/

namespace Statement

theorem classify_return {i j : Nat} {value : Run} (h : value ≠ []) :
    classify (⟨⟨.name, "return"⟩, i⟩ :: (value ++ [⟨.symbol ";", j⟩])) = .ret (some value) := by
  have hreturn : isKeyword "return" ⟨.name, "return"⟩ = true := by decide +kernel
  have hbody : body (⟨⟨.name, "return"⟩, i⟩ :: (value ++ [⟨.symbol ";", j⟩])) =
      ⟨⟨.name, "return"⟩, i⟩ :: value := by
    rw [← List.cons_append, body, List.getLast?_concat, List.dropLast_concat]
    rfl
  simp only [classify, hreturn, if_true, hbody, List.drop_succ_cons, List.drop_zero,
    List.isEmpty_iff, h, if_false]

/-- A `return` of balanced tokens without a semicolon outside brackets is one statement. -/
theorem split_return {ts : Run} {value : List Token} (hvalue : Piece ";" value)
    (h : ts.tokens = ⟨.name, "return"⟩ :: (value ++ [.symbol ";"])) : split ts = [ts] := by
  obtain ⟨i, ts, rfl, hrest⟩ := exists_cons_of_tokens h
  obtain ⟨value, last, rfl, rfl, hlast⟩ := exists_append_of_tokens hrest
  obtain ⟨j, last, rfl, hnil⟩ := exists_cons_of_tokens hlast
  obtain rfl := List.map_eq_nil_iff.1 hnil
  let head : Placed := ⟨⟨.name, "return"⟩, i⟩
  have hblock : isKeywordIn blockKeywords ⟨.name, "return"⟩ = false := by decide +kernel
  have hstart (rest : Run) :
      splitFrom 0 none (head :: rest) = push head (splitFrom 0 (some head) rest) :=
    splitFrom_of_not_endsAt rfl
  have hend : splitFrom 0 (some head) [⟨.symbol ";", j⟩] = [[⟨.symbol ";", j⟩], []] := rfl
  refine @split_of_splitFrom _ [_] [] ?_
  rw [hstart, splitFrom_of_uncut hblock hvalue.balanced hvalue.uncut, hend, foldr_push]
  rfl

end Statement

/-- A `return` of a value without a semicolon outside brackets is read as one statement. The value
is read without its documentation comments. -/
theorem readStatements_return (source : List Char) {ts : Run} {value : List Token}
    (hvalue : Piece ";" value) (hne : value.filter (!·.isDoc) ≠ [])
    (h : ts.tokens = ⟨.name, "return"⟩ :: (value ++ [.symbol ";"])) :
    ∃ (inner : Run) (s : Stmt), inner.tokens = value.filter (!·.isDoc) ∧
      readStatements source ts = [s] ∧ s.form = .ret (some (readExpr source inner)) := by
  have hcode : ts.code.tokens =
      ⟨.name, "return"⟩ :: (value.filter (!·.isDoc) ++ [.symbol ";"]) := by
    rw [Run.tokens_code, h]
    simp [isDoc, Token.symbol]
  obtain ⟨i, rest, hcons, hrest⟩ := exists_cons_of_tokens hcode
  obtain ⟨inner, last, rfl, hinner, hlast⟩ := exists_append_of_tokens hrest
  obtain ⟨j, last, rfl, hnil⟩ := exists_cons_of_tokens hlast
  obtain rfl := List.map_eq_nil_iff.1 hnil
  have hinner_ne : inner ≠ [] := by
    rintro rfl
    exact hne hinner.symm
  have hclass := Statement.classify_return (i := i) (j := j) hinner_ne
  refine ⟨inner, readStatement source ts, hinner, ?_, ?_⟩
  · rw [readStatements_eq_map, Statement.split_return hvalue h, List.map_singleton]
  · rw [form_readStatement, hcons, hclass]
    rfl

/-- **The statement is read as a call** with the count, a closure of the parameters and the body,
and the call of `func_get_args`. -/
theorem readStatements_wrapped {source : List Char} {ts : Run} {curry : String} {n : Nat}
    {params body : List Token} (hparams : balanced 0 params = true) (hbody : balanced 0 body = true)
    (h : ts.tokens = wrapped curry n params body) :
    ∃ inner block : Run, inner.tokens = params.filter (!·.isDoc) ∧
      block.tokens = body.filter (!·.isDoc) ∧
      ∃ s count, readStatements source ts = [s] ∧ count.IsCount n ∧
        s.form = .ret (some (.call (.static "static" curry)
          [count, .closure ⟨false, Param.listOfRun inner, [], none⟩
              (.block (readStatements source block)),
            .call (.function "func_get_args") []])) := by
  have hcode := filter_code_staticCall curry n params body
  obtain ⟨value, s, hvalue, hstatements, hform⟩ := readStatements_return source
    (piece_staticCall (balanced_wrappedArguments hparams hbody n))
    (hcode ▸ List.cons_ne_nil _ _) h
  rw [hcode] at hvalue
  rw [← balanced_filter_code] at hparams hbody
  obtain ⟨args, hargs, hshape⟩ :=
    Shape.of_staticCall (balanced_wrappedArguments hparams hbody n) hvalue
  obtain ⟨count, closure, call, hcount, hclosure, hcall, hpieces⟩ :=
    splitTopLevel_wrappedArguments hparams hbody hargs
  obtain ⟨inner, block, hinner, hblock, hshape'⟩ := Shape.of_closure hparams hbody hclosure
  refine ⟨inner, block, hinner, hblock, s, readExpr source count, hstatements,
    readExpr_count hcount, ?_⟩
  have hclosure : readExpr source closure = .closure ⟨false, Param.listOfRun inner, [], none⟩
      (.block (readStatements source block)) := by
    rw [readExpr_eq, hshape']
  have hcall : readExpr source call = .call (.function "func_get_args") [] := by
    rw [readExpr_eq, Shape.of_funcGetArgs hcall]
    rfl
  rw [hform, readExpr_eq source value, hshape, hpieces]
  simp only [List.map_cons, List.map_nil, hclosure, hcall]

end CurryGen

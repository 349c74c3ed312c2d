import CurryGen.Artifact.CollectionTest
import CurryGen.Proofs.Example.Rows
import CurryGen.Proofs.Tree.Source

/-!
# Spread arguments in generated tests

A test method takes its variadic parameter last, and its calls spread an argument only at the end of
a group. Whether the declared variadic parameter stays variadic is decided by the inner parameters,
and the calls of a test split its arguments in every way, so both are followed through all of them.

* `CallShape.Taken.own_cases`: what is variadic in a call shape.
* `IsCallWith`: calls whose argument groups are as they should be, and what is put together of them.
* `CallShape.SpreadsLast`: the groups of arguments that a test passes.
* `BasicTest.isCallWith_directCall`, `BasicTest.isCallWith_chainCalls`,
  `CollectionTest.isCallWith_wrappedCall`: the calls of generated tests.
* `Template.spreads_last`: the test methods of a function.
-/

namespace CurryGen

open Code BasicTest

/-! ## Parameters and groups of arguments -/

/-- Only the last parameter may be variadic. -/
def VariadicLast (ps : List Param) : Prop := ∀ p ∈ ps.dropLast, p.variadic = false

/-- Whether an argument is spread over several. -/
def isSpread (arg : String) : Bool := Text.startsWith "..." arg

/-- Only the last argument of a group may be spread. -/
def SpreadLast (group : List String) : Prop := ∀ arg ∈ group.dropLast, isSpread arg = false

theorem dropLast_sublist_dropLast {α : Type} {l m : List α} (h : l.Sublist m) :
    l.dropLast.Sublist m.dropLast := by
  have htail := h.reverse.tail
  rwa [List.tail_reverse, List.tail_reverse, List.reverse_sublist] at htail

theorem SpreadLast.sublist {group args : List String} (h : SpreadLast args)
    (hsub : group.Sublist args) : SpreadLast group := fun arg harg =>
  h arg ((dropLast_sublist_dropLast hsub).subset harg)

theorem spreadLast_singleton (arg : String) : SpreadLast [arg] := nofun

theorem isSpread_argument (p : Param) : isSpread p.argument = p.variadic := by
  unfold isSpread Param.argument Text.startsWith
  cases p.variadic
  · rw [if_neg Bool.false_ne_true, String.toList_append]
    rfl
  · simp

theorem VariadicLast.append {ps qs : List Param} (hps : ∀ p ∈ ps, p.variadic = false)
    (hqs : VariadicLast qs) : VariadicLast (ps ++ qs) := by
  unfold VariadicLast
  cases qs with
  | nil =>
    rw [List.append_nil]
    exact fun p hp => hps p (List.dropLast_subset _ hp)
  | cons q qs =>
    rw [List.dropLast_append_of_ne_nil (List.cons_ne_nil q qs)]
    exact List.forall_mem_append.2 ⟨hps, hqs⟩

theorem VariadicLast.spreadLast {ps : List Param} (h : VariadicLast ps) :
    SpreadLast (ps.map (·.argument)) := by
  unfold SpreadLast
  rw [← List.map_dropLast]
  exact List.forall_mem_map.2 fun p hp => (isSpread_argument p).trans (h p hp)

/-! ## Call shapes -/

namespace CallShape

variable {shape : CallShape}

/-- A call shape has either no variadic parameter among the declared ones, or one at their end and
no inner parameters after it. -/
theorem Taken.own_cases (h : shape.Taken) :
    (∀ p ∈ shape.own, p.variadic = false) ∨ VariadicLast shape.own ∧ shape.inner = [] := by
  cases h with
  | plain _ hown => exact .inl hown
  | tail _ hnil hown hinit _ =>
    refine .inr ⟨?_, hnil⟩
    rwa [VariadicLast, hown, List.dropLast_concat]
  | array _ hown hinit hlast _ =>
    rw [hown]
    exact .inl (List.forall_mem_append.2 ⟨hinit, List.forall_mem_singleton.2 hlast⟩)

theorem Taken.variadicLast_testParams (h : shape.Taken) (hinner : VariadicLast shape.inner) :
    VariadicLast (TestClass.testParams shape) := by
  have hexpected : ∀ p ∈ [{ name := "expected" : Param }], p.variadic = false :=
    List.forall_mem_singleton.2 rfl
  show VariadicLast ([{ name := "expected" }] ++ (shape.own ++ shape.inner))
  rcases h.own_cases with hown | ⟨hown, hnil⟩
  · exact .append hexpected (.append hown hinner)
  · rw [hnil, List.append_nil]
    exact .append hexpected hown

theorem Taken.spreadLast_ownArguments (h : shape.Taken) : SpreadLast shape.ownArguments := by
  unfold ownArguments
  cases h with
  | plain harray hown =>
    rw [harray]
    exact VariadicLast.spreadLast fun p hp => hown p (List.dropLast_subset _ hp)
  | tail harray _ hown hinit _ =>
    rw [harray]
    refine VariadicLast.spreadLast ?_
    rwa [VariadicLast, hown, List.dropLast_concat]
  | array harray hown hinit _ _ =>
    rw [harray, if_pos rfl, hown, List.dropLast_concat, List.getLast?_concat]
    show SpreadLast (_ ++ [_])
    rw [SpreadLast, List.dropLast_concat]
    exact List.forall_mem_map.2 fun p hp => (isSpread_argument p).trans (hinit p hp)

/-- In the groups of arguments that a test of a function passes, only the last may be spread. -/
structure SpreadsLast (shape : CallShape) (f : TemplateFunction) : Prop where
  own : SpreadLast shape.ownArguments
  inner : SpreadLast shape.innerArguments
  /-- There is nothing to pass on to where no callable is returned. -/
  fixed : f.returnsCallable = false → shape.innerArguments = []

end CallShape

/-! ## Calls -/

/-- A text is a call of the callee that passes the arguments, in one or more groups. Only the last
argument of a group may be spread. -/
def IsCallWith (callee : String) (args : List String) (s : String) : Prop :=
  ∃ groups : List (List String), groups ≠ [] ∧ s = groups.foldl call callee ∧
    groups.flatten = args ∧ ∀ group ∈ groups, SpreadLast group

namespace IsCallWith

variable {callee s : String} {args group : List String}

theorem once (callee : String) (h : SpreadLast args) : IsCallWith callee args (call callee args) :=
  ⟨[args], List.cons_ne_nil _ _, rfl, List.flatten_singleton, List.forall_mem_singleton.2 h⟩

/-- A call of what a call gives. -/
theorem again (h : IsCallWith callee args s) (hgroup : SpreadLast group) :
    IsCallWith callee (args ++ group) (call s group) := by
  obtain ⟨groups, hne, rfl, rfl, hgroups⟩ := h
  refine ⟨groups ++ [group], by simp, by simp, by simp, ?_⟩
  exact List.forall_mem_append.2 ⟨hgroups, List.forall_mem_singleton.2 hgroup⟩

end IsCallWith

namespace BasicTest

variable {callee : String} {args : List String}

theorem isCallWith_splitCall (h : SpreadLast args) (n : Nat) :
    IsCallWith callee args (splitCall callee args n) := by
  have hfirst : IsCallWith callee (args.take n) (call callee (args.take n)) :=
    .once callee (h.sublist (List.take_sublist n args))
  unfold splitCall
  simp only
  split
  · rename_i hnil
    have hall : args.take n = args := by
      conv => rhs; rw [← List.take_append_drop n args, hnil, List.append_nil]
    rw [hall] at hfirst ⊢
    exact hfirst
  · have hboth := hfirst.again (h.sublist (List.drop_sublist n args))
    rwa [List.take_append_drop] at hboth

theorem isCallWith_curryChain (h : SpreadLast args) :
    ∀ s ∈ curryChain callee args, IsCallWith callee args s :=
  List.forall_mem_map.2 fun n _ => isCallWith_splitCall h n

section

variable {f : TemplateFunction} {shape : CallShape} (h : shape.SpreadsLast f)
include h

theorem isCallWith_directCall : IsCallWith callee (shape.ownArguments ++ shape.innerArguments)
    (directCall callee f shape) := by
  unfold directCall
  cases hcallable : f.returnsCallable with
  | true => exact (IsCallWith.once callee h.own).again h.inner
  | false =>
    rw [h.fixed hcallable, List.append_nil]
    exact .once callee h.own

theorem isCallWith_chainCalls : ∀ s ∈ chainCalls callee f shape,
    IsCallWith callee (shape.ownArguments ++ shape.innerArguments) s := by
  unfold chainCalls
  cases hcallable : f.returnsCallable with
  | true =>
    exact List.forall_mem_map.2 fun s hs => (isCallWith_curryChain h.own s hs).again h.inner
  | false =>
    rw [h.fixed hcallable, List.append_nil]
    simp only [Bool.false_eq_true, if_false]
    split
    · rename_i last hlast
      -- the variadic argument leaves the chain, and is passed in a group of its own
      have hlast : shape.ownArguments.getLast? = some last := by
        split at hlast
        · exact hlast
        · cases hlast
      have hargs : shape.ownArguments.dropLast ++ [last] = shape.ownArguments :=
        List.dropLast_append_getLast? last hlast
      refine List.forall_mem_map.2 fun s hs => ?_
      have hcall := (isCallWith_curryChain (h.own.sublist (List.dropLast_sublist _)) s hs).again
        (spreadLast_singleton last)
      rwa [hargs] at hcall
    · exact isCallWith_curryChain h.own

end

end BasicTest

/-! ## Tests -/

/-- The argument in the place of the wrapped collection. -/
def CollectionTest.wrap (v arg : String) : String := if arg = v then wrapped else arg

theorem SpreadLast.map_wrap {args : List String} (h : SpreadLast args) (v : String) :
    SpreadLast (args.map (CollectionTest.wrap v)) := by
  unfold SpreadLast
  rw [← List.map_dropLast]
  refine List.forall_mem_map.2 fun arg harg => ?_
  unfold CollectionTest.wrap
  split
  · decide
  · exact h arg harg

theorem CollectionTest.isCallWith_wrappedCall {callee v : String} {f : TemplateFunction}
    {shape : CallShape} (h : shape.SpreadsLast f) :
    IsCallWith callee (shape.ownArguments.map (wrap v) ++ shape.innerArguments)
      (wrappedCall callee v f shape) := by
  unfold wrappedCall
  cases hcallable : f.returnsCallable with
  | true => exact (IsCallWith.once callee (h.own.map_wrap v)).again h.inner
  | false =>
    rw [h.fixed hcallable, List.append_nil]
    exact .once callee (h.own.map_wrap v)

/-- What a test makes of a function whose last parameters alone are variadic. -/
theorem Template.spreadsLast_of_callShape {t : Template} {f : TemplateFunction} {shape : CallShape}
    (h : t.callShape f = .ok shape) (hparams : VariadicLast f.params)
    (hinner : f.needsInnerParams = true → ∀ inner, t.innerParams f.name = .ok inner →
      VariadicLast inner) :
    VariadicLast (TestClass.testParams shape) ∧ shape.SpreadsLast f := by
  have hof {inner : List Param} (hinner : VariadicLast inner) :
      VariadicLast (TestClass.testParams (.of f inner)) ∧ (CallShape.of f inner).SpreadsLast f := by
    have htaken : (CallShape.of f inner).Taken := CallShape.taken_of hparams inner
    have hlast : VariadicLast (CallShape.of f inner).inner := CallShape.variadic_inner_of hinner
    refine ⟨htaken.variadicLast_testParams hlast, htaken.spreadLast_ownArguments, hlast.spreadLast,
      fun hnot => ?_⟩
    rw [CallShape.innerArguments, CallShape.inner_of, hnot]
    rfl
  unfold callShape at h
  split at h
  · rename_i hneeds
    obtain ⟨inner, hresolved, rfl⟩ := Declaration.exists_of_map h
    exact hof (hinner hneeds inner hresolved)
  · obtain rfl := Except.ok.inj h
    exact hof (List.forall_mem_nil _)

/-- Every line of a basic test is empty, or asserts what a call with the arguments gives. -/
def BasicTest.HasCalls (callee : String) (args body : List String) : Prop :=
  ∀ line ∈ body, line = "" ∨ ∃ asserting actual, line = asserting ++ ";" ∧
    IsCallWith "$this->assertEquals" ["$expected", actual] asserting ∧ IsCallWith callee args actual

theorem BasicTest.assertion_eq (actual : String) :
    assertion actual = call "$this->assertEquals" ["$expected", actual] ++ ";" := by
  have hopen : "$this->assertEquals($expected, " =
      "$this->assertEquals" ++ "(" ++ ("$expected" ++ ", ") := by decide +kernel
  unfold assertion call
  rw [hopen]
  simp only [String.intercalate_cons_cons, String.intercalate_singleton, String.append_assoc]
  rfl

/-- What is asserted of a call with the arguments is such a line of a basic test. -/
theorem BasicTest.hasCalls_method (c : Config) (providers : Option ClassDecl)
    {f : TemplateFunction} {shape : CallShape} (h : shape.SpreadsLast f) :
    HasCalls (c.api.shownAs ++ "::" ++ f.name) (shape.ownArguments ++ shape.innerArguments)
      (methodWith c providers f shape).body := by
  have hassert {callee actual : String} {args : List String} (h : IsCallWith callee args actual) :
      assertion actual = "" ∨ ∃ asserting actual', assertion actual = asserting ++ ";" ∧
        IsCallWith "$this->assertEquals" ["$expected", actual'] asserting ∧
        IsCallWith callee args actual' :=
    .inr ⟨_, actual, assertion_eq actual, .once _ (List.forall_mem_singleton.2 rfl), h⟩
  unfold HasCalls methodWith
  refine List.forall_mem_cons.2 ⟨hassert (isCallWith_directCall h), ?_⟩
  split
  · refine List.forall_mem_cons.2 ⟨.inl rfl, List.forall_mem_map.2 fun s hs => ?_⟩
    exact hassert (isCallWith_chainCalls h s hs)
  · exact nofun

/-- The lines of a collection test are these, and their calls are those with these arguments. -/
def CollectionTest.HasCalls (c : Config) (callee v fixture : String) (args body : List String) :
    Prop :=
  ∃ wrapping actual toArray asserting values unchanged,
    body =
      [wrapped ++ " = " ++ wrapping ++ ";",
       "$actual = " ++ actual ++ ";",
       "if ($actual instanceof " ++ shortName c.tests.collectionInterface ++ ") \x7b",
       "    $actual = " ++ toArray ++ ";",
       "\x7d",
       "",
       asserting ++ ";",
       unchanged ++ ";"] ∧
    IsCallWith ("new " ++ shortName fixture) [v] wrapping ∧
    IsCallWith callee args actual ∧
    IsCallWith ("$actual->" ++ c.tests.toArrayMethod) [] toArray ∧
    IsCallWith "$this->assertEquals" ["$expected", "$actual"] asserting ∧
    IsCallWith "$this->assertEquals" [v, values] unchanged ∧
    IsCallWith (wrapped ++ "->" ++ c.tests.valuesMethod) [] values

theorem isSpread_variable (name : String) : isSpread ("$" ++ name) = false := by
  unfold isSpread Text.startsWith
  rw [String.toList_append]
  rfl

theorem CollectionTest.hasCalls_method (c : Config) (providers : Option ClassDecl)
    {f : TemplateFunction} {shape : CallShape} (h : shape.SpreadsLast f)
    (collection fixture suffix : String) :
    HasCalls c (c.api.shownAs ++ "::" ++ f.name) ("$" ++ collection) fixture
      (shape.ownArguments.map (wrap ("$" ++ collection)) ++ shape.innerArguments)
      (methodWith c providers f shape collection fixture suffix).body := by
  refine ⟨_, wrappedCall _ _ f shape, _, _, _, _, ?_, .once _ (spreadLast_singleton _),
    isCallWith_wrappedCall h, .once _ nofun,
    .once _ (List.forall_mem_singleton.2 rfl),
    .once _ (List.forall_mem_singleton.2 (isSpread_variable collection)), .once _ nofun⟩
  -- the texts of the lines are cut where a call begins or its arguments do
  have hnew : " = new " = " = " ++ "new " := by decide +kernel
  have hnone : "();" = "(" ++ "" ++ ")" ++ ";" := by decide +kernel
  have hassert : "$this->assertEquals(" = "$this->assertEquals" ++ "(" := by decide +kernel
  unfold methodWith call
  simp only [hnew, hnone, hassert, String.intercalate_cons_cons, String.intercalate_singleton,
    String.intercalate_nil, String.append_assoc]
  rfl

/-- **Variadic parameters and spread arguments stand last** in the test methods of a function, if
its own variadic parameters and those of the callable that it leads to do. -/
theorem Template.spreads_last {t : Template} {f : TemplateFunction} {shape : CallShape}
    (h : t.callShape f = .ok shape) (hparams : VariadicLast f.params)
    (hinner : f.needsInnerParams = true → ∀ inner, t.innerParams f.name = .ok inner →
      VariadicLast inner)
    (c : Config) (providers : Option ClassDecl) :
    (∃ o, BasicTest.method? c t providers f = .ok o ∧
      ∀ m ∈ o, VariadicLast m.params ∧
        BasicTest.HasCalls (c.api.shownAs ++ "::" ++ f.name)
          (shape.ownArguments ++ shape.innerArguments) m.body) ∧
    ∃ ms, CollectionTest.methods c t providers f = .ok ms ∧
      ∀ m ∈ ms, VariadicLast m.params ∧ ∃ collection fixture,
        f.collectionArgument? = some collection ∧
        CollectionTest.HasCalls c (c.api.shownAs ++ "::" ++ f.name) ("$" ++ collection) fixture
          (shape.ownArguments.map (CollectionTest.wrap ("$" ++ collection)) ++
            shape.innerArguments) m.body := by
  obtain ⟨hvariadic, hspreads⟩ := spreadsLast_of_callShape h hparams hinner
  constructor
  · unfold BasicTest.method?
    split
    · exact ⟨none, rfl, nofun⟩
    · rw [h]
      refine ⟨_, rfl, ?_⟩
      rintro m ⟨⟩
      exact ⟨hvariadic, BasicTest.hasCalls_method c providers hspreads⟩
  · unfold CollectionTest.methods
    split
    · exact ⟨[], rfl, nofun⟩
    · rename_i collection hcollection
      split
      · exact ⟨[], rfl, nofun⟩
      · rw [h]
        have hmethod := CollectionTest.hasCalls_method c providers hspreads collection
        refine ⟨_, rfl, List.forall_mem_cons.2 ⟨?_, List.forall_mem_singleton.2 ?_⟩⟩
        · exact ⟨hvariadic, collection, _, hcollection, hmethod _ _⟩
        · exact ⟨hvariadic, collection, _, hcollection, hmethod _ _⟩

/-- The parameters of a callable that takes a value and any number of functions. -/
def chained : List Param := [{ name := "value" }, { name := "functions", variadic := true }]

/-- A function that takes a collection and returns such a callable. -/
def chaining : TemplateFunction where
  definition :=
    { doc := some "/** @return callable */"
      name := "chain"
      params := [{ name := "collection" }]
      body := some [.mk (.ret (some (.closure ⟨false, chained, [], none⟩ (.block [])))) [] []] }

theorem Template.spreads_last_chain :
    let t : Template := ⟨[chaining], {}, by simp⟩
    (∃ m, BasicTest.method? {} t none chaining = .ok (some m) ∧ VariadicLast m.params ∧
      BasicTest.HasCalls "P::chain" ["$collection", "$value", "...$functions"] m.body) ∧
    ∃ ms, CollectionTest.methods {} t none chaining = .ok ms ∧ ms.length = 2 ∧
      ∀ m ∈ ms, VariadicLast m.params ∧ ∃ fixture,
        CollectionTest.HasCalls {} "P::chain" "$collection" fixture
          ["$wrappedCollection", "$value", "...$functions"] m.body := by
  intro t
  have hinner : t.innerParams chaining.name = .ok chained := by cbv
  have hneeds : chaining.needsInnerParams = true ∧ chaining.returnsObject = false := by
    decide +kernel
  have hshape : t.callShape chaining = .ok (.of chaining chained) := by
    rw [callShape, if_pos hneeds.1, hinner]
    rfl
  have hvariadic : ∀ inner, t.innerParams chaining.name = .ok inner → VariadicLast inner := by
    intro inner h
    rw [hinner] at h
    cases h
    exact List.forall_mem_singleton.2 rfl
  have hargs : (CallShape.of chaining chained).ownArguments = ["$collection"] ∧
      (CallShape.of chaining chained).innerArguments = ["$value", "...$functions"] := by
    decide +kernel
  have htakes : chaining.collectionArgument? = some "collection" ∧ chaining.isVariadic = false := by
    decide +kernel
  have hbasic : BasicTest.method? {} t none chaining =
      .ok (some (BasicTest.methodWith {} none chaining (.of chaining chained))) := by
    rw [BasicTest.method?, hneeds.2, hshape]
    rfl
  obtain ⟨⟨o, ho, hcalls⟩, ms, hms, hwrapped⟩ :=
    spreads_last hshape (List.forall_mem_nil _) (fun _ => hvariadic) {} none
  rw [hargs.1, hargs.2] at hcalls hwrapped
  have hlength : ms.length = 2 := by
    rw [CollectionTest.methods, htakes.1] at hms
    simp only [hneeds.2, htakes.2, hshape] at hms
    obtain rfl := Except.ok.inj hms
    rfl
  rw [hbasic] at ho
  obtain rfl := Except.ok.inj ho
  refine ⟨⟨_, hbasic, hcalls _ rfl⟩, ms, hms, hlength, fun m hm => ?_⟩
  obtain ⟨hlast, collection, fixture, hcollection, hbody⟩ := hwrapped m hm
  rw [htakes.1] at hcollection
  obtain rfl := Option.some.inj hcollection
  exact ⟨hlast, fixture, hbody⟩

end CurryGen

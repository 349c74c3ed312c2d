import CurryGen.Proofs.Artifact.Spread
import CurryGen.Proofs.Artifact.TestParam

/-!
# The calls in generated tests

The direct call of a function, the chain of calls that split its arguments and the call with a
wrapped collection are put together apart from each other. All of them pass the same arguments in
the same order, in groups that follow from the signature.

* `CallShape.ownArguments_of`: the declared parameters are passed on as they were declared.
* `BasicTest.splitAfter`, `BasicTest.loopArguments`, `BasicTest.finalGroups`: the groups of
  arguments in the chain.
* `BasicTest.chainCalls_eq`, `CollectionTest.wrappedCall_eq`: the calls by their groups.
* `Template.tests_call`: the calls in the tests of a function.
-/

namespace CurryGen

open Code BasicTest Examples

/-! ## Arguments -/

/-- However the variadic parameter at the end is received, it is spread again. -/
theorem CallShape.ownArguments_of (f : TemplateFunction) (inner : List Param) :
    (of f inner).ownArguments = f.params.map (·.argument) := by
  have hstrip (ps : List Param) : (ps.map strip).map (·.argument) = ps.map (·.argument) := by
    rw [List.map_map]
    rfl
  have hown := own_of f inner
  unfold ownArguments
  cases harray : (of f inner).variadicAsArray with
  | false =>
    rw [harray] at hown
    exact (congrArg (List.map (·.argument)) hown).trans (hstrip _)
  | true =>
    rw [harray, if_pos rfl] at hown
    have hvariadic : f.isVariadic = true := by
      rw [variadicAsArray_of, Bool.and_assoc, Bool.and_eq_true] at harray
      exact harray.1
    rcases List.eq_nil_or_concat f.params with hnil | ⟨init, last, hconcat⟩
    · rw [isVariadic_eq, hnil] at hvariadic
      cases hvariadic
    · rw [List.concat_eq_append] at hconcat
      rw [isVariadic_eq, hconcat, List.getLast?_concat, Option.any_some] at hvariadic
      rw [hconcat, List.map_append, List.map_singleton, mapLast, List.dropLast_concat,
        List.getLast?_concat] at hown
      have hlast : last.argument = "...$" ++ last.name := by rw [Param.argument, if_pos hvariadic]
      rw [hown, if_pos rfl]
      simp only [Option.map_some, Option.toList_some, List.dropLast_concat, List.getLast?_concat,
        hstrip, hconcat, List.map_append, List.map_singleton, hlast]
      rfl

/-- The arguments for the inner parameters that are left. -/
theorem CallShape.innerArguments_of (f : TemplateFunction) (inner : List Param) :
    (of f inner).innerArguments =
      if f.returnsCallable then
        (inner.filter fun p => p.name ∉ f.params.map (·.name)).map (·.argument)
      else [] := by
  rw [innerArguments, inner_of_eq]
  split
  · rw [List.map_map]
    rfl
  · rfl

/-- The arguments of variables with other names are other arguments. -/
theorem Param.argument_ne_variable {p : Param} {name : String} (h : p.name ≠ name) :
    p.argument ≠ "$" ++ name := by
  intro heq
  rw [argument] at heq
  split at heq
  · have hlists := congrArg String.toList heq
    rw [String.toList_append, String.toList_append] at hlists
    cases hlists
  · exact h ((String.append_right_inj _).1 heq)

/-! ## The chain -/

namespace BasicTest

/-- The first `k` arguments, and the others in a second group if there are any. -/
def splitAfter (k : Nat) (args : List String) : List (List String) :=
  args.take k :: if args.length ≤ k then [] else [args.drop k]

theorem flatten_splitAfter (k : Nat) (args : List String) : (splitAfter k args).flatten = args := by
  rw [splitAfter, List.flatten_cons]
  split
  · rename_i hle
    rw [List.flatten_nil, List.append_nil, List.take_of_length_le hle]
  · rw [List.flatten_singleton, List.take_append_drop]

theorem splitCall_eq (callee : String) (args : List String) (k : Nat) :
    splitCall callee args k = (splitAfter k args).foldl call callee := by
  unfold splitCall splitAfter
  rcases Nat.lt_or_ge k args.length with hlt | hle
  · have hne : args.drop k ≠ [] := List.ne_nil_of_length_pos (by rw [List.length_drop]; omega)
    rw [if_neg (by omega)]
    split
    · rename_i hnil
      exact absurd hnil hne
    · rfl
  · rw [List.drop_of_length_le hle, if_pos hle]
    rfl

section
variable (f : TemplateFunction) (own inner : List String)

/-- The arguments that a curried function takes one after another: all of its own, but not a
variadic one at the end that nothing follows. -/
def loopArguments : List String :=
  if f.isVariadic && !f.returnsCallable then own.dropLast else own

/-- The groups that are passed after those. -/
def finalGroups : List (List String) :=
  if f.returnsCallable then [inner] else if f.isVariadic then [own.getLast?.toList] else []

/-- The groups of arguments in the calls of the chain. -/
def chainGroups : List (List (List String)) :=
  (List.range ((loopArguments f own).length + 1)).map fun k =>
    splitAfter k (loopArguments f own) ++ finalGroups f own inner

theorem length_chainGroups :
    (chainGroups f own inner).length = (loopArguments f own).length + 1 := by
  rw [chainGroups, List.length_map, List.length_range]

theorem getElem?_chainGroups {k : Nat} (h : k ≤ (loopArguments f own).length) :
    (chainGroups f own inner)[k]? =
      some (splitAfter k (loopArguments f own) ++ finalGroups f own inner) := by
  rw [chainGroups, List.getElem?_map, List.getElem?_range (by omega), Option.map_some]

theorem loopArguments_append_flatten_finalGroups :
    loopArguments f own ++ (finalGroups f own inner).flatten =
      own ++ if f.returnsCallable then inner else [] := by
  unfold loopArguments finalGroups
  cases f.returnsCallable
  · cases f.isVariadic
    · rfl
    · have hparts : own.dropLast ++ own.getLast?.toList = own := by
        cases hlast : own.getLast? with
        | none =>
          rw [List.getLast?_eq_none_iff.1 hlast]
          rfl
        | some last => exact List.dropLast_append_getLast? last hlast
      simp [hparts]
  · simp

theorem flatten_of_mem_chainGroups {groups : List (List String)}
    (h : groups ∈ chainGroups f own inner) :
    groups.flatten = own ++ if f.returnsCallable then inner else [] := by
  obtain ⟨k, -, rfl⟩ := List.mem_map.1 h
  rw [List.flatten_append, flatten_splitAfter, loopArguments_append_flatten_finalGroups]

theorem flatten_groups :
    (groups f own inner).flatten = own ++ if f.returnsCallable then inner else [] := by
  unfold groups
  split
  · simp
  · simp

end

theorem chainCalls_eq (callee : String) (f : TemplateFunction) (inner : List Param) :
    chainCalls callee f (.of f inner) =
      (chainGroups f (CallShape.of f inner).ownArguments
        (CallShape.of f inner).innerArguments).map (·.foldl call callee) := by
  unfold chainCalls chainGroups loopArguments finalGroups curryChain
  cases hcallable : f.returnsCallable with
  | true =>
    simp [splitCall_eq]
  | false =>
    cases hvariadic : f.isVariadic with
    | false => simp [splitCall_eq]
    | true =>
      obtain ⟨last, hlast⟩ : ∃ last, (CallShape.of f inner).ownArguments.getLast? = some last := by
        rw [CallShape.isVariadic_eq, Option.any_eq_true] at hvariadic
        obtain ⟨p, hp, -⟩ := hvariadic
        exact ⟨p.argument, by rw [CallShape.ownArguments_of, List.getLast?_map, hp]; rfl⟩
      simp [splitCall_eq, hlast]

end BasicTest

/-! ## The wrapped collection -/

namespace CollectionTest

theorem wrappedCall_eq (callee v : String) (f : TemplateFunction) (shape : CallShape) :
    wrappedCall callee v f shape =
      (groups f (shape.ownArguments.map (wrap v)) shape.innerArguments).foldl call callee := by
  unfold wrappedCall groups
  split <;> rfl

/-- The collection is passed last, and nothing else that is passed is it. -/
theorem exists_init {f : TemplateFunction} {collection : String}
    (hcollection : f.collectionArgument? = some collection) (hvariadic : f.isVariadic = false)
    (hparams : (f.params.map (·.name)).Nodup) :
    ∃ init, f.params.map (·.argument) = init ++ ["$" ++ collection] ∧
      (f.params.map (·.argument)).map (wrap ("$" ++ collection)) = init ++ [wrapped] := by
  obtain ⟨last, hlast, rfl⟩ := Option.map_eq_some_iff.1 hcollection
  have hlast : f.params.getLast? = some last := Option.eq_some_of_filter_eq_some hlast
  rw [CallShape.isVariadic_eq, hlast, Option.any_some] at hvariadic
  have hparts : f.params.dropLast ++ [last] = f.params := List.dropLast_append_getLast? last hlast
  have hargument : last.argument = "$" ++ last.name := by rw [Param.argument, hvariadic]; rfl
  rw [← hparts, List.map_append, List.map_singleton, List.nodup_append] at hparams
  have hothers : ∀ p ∈ f.params.dropLast, p.name ≠ last.name := fun p hp =>
    hparams.2.2 _ (List.mem_map_of_mem hp) _ (List.mem_singleton_self _)
  refine ⟨f.params.dropLast.map (·.argument), ?_, ?_⟩
  · rw [← hargument, ← List.map_singleton (f := fun p : Param => p.argument), ← List.map_append,
      hparts]
  · rw [← hparts, List.map_append, List.map_append, List.dropLast_concat, List.map_singleton,
      List.map_singleton, hargument, wrap, if_pos rfl]
    congr 1
    rw [List.map_map]
    refine List.map_congr_left fun p hp => ?_
    exact if_neg (Param.argument_ne_variable (hothers p hp))

/-- The tests of a function, and the calls in them. -/
theorem exists_methods {t : Template} {f : TemplateFunction} {inner : List Param}
    (hshape : t.callShape f = .ok (.of f inner)) (hobject : f.returnsObject = false) (c : Config)
    (providers : Option ClassDecl) (hparams : (f.params.map (·.name)).Nodup) :
    ∃ ms, methods c t providers f = .ok ms ∧
      ms.length = (if f.isCollectionFunction && !f.isVariadic then 2 else 0) ∧
      ∀ m ∈ ms, ∃ collection init, f.collectionArgument? = some collection ∧
        f.params.map (·.argument) = init ++ ["$" ++ collection] ∧
        m.body[1]? = some ("$actual = " ++
          (groups f (init ++ [wrapped]) (CallShape.of f inner).innerArguments).foldl call
            (c.api.shownAs ++ "::" ++ f.name) ++ ";") := by
  unfold methods TemplateFunction.isCollectionFunction
  cases hcollection : f.collectionArgument? with
  | none => exact ⟨[], rfl, rfl, nofun⟩
  | some collection =>
    simp only [hobject, hshape, Bool.false_or, Option.isSome_some, Bool.true_and]
    cases hvariadic : f.isVariadic with
    | true => exact ⟨[], rfl, rfl, nofun⟩
    | false =>
      obtain ⟨init, hinit, hwrapped⟩ := exists_init hcollection hvariadic hparams
      have hcall (fixture suffix : String) :
          (methodWith c providers f (.of f inner) collection fixture suffix).body[1]? =
            some ("$actual = " ++ (groups f (init ++ [wrapped])
              (CallShape.of f inner).innerArguments).foldl call
                (c.api.shownAs ++ "::" ++ f.name) ++ ";") := by
        rw [← hwrapped, ← CallShape.ownArguments_of f inner, ← wrappedCall_eq]
        rfl
      refine ⟨_, rfl, rfl, List.forall_mem_cons.2 ⟨?_, List.forall_mem_singleton.2 ?_⟩⟩
      · exact ⟨collection, init, rfl, hinit, hcall _ _⟩
      · exact ⟨collection, init, rfl, hinit, hcall _ _⟩

end CollectionTest

/-! ## Tests -/

/-- **All calls in the tests of a function pass the same arguments.** In the basic test every
assertion is about a call of the function, and the groups of the call hold the arguments of the
declared parameters and, where a callable is returned, those of its parameters after them. A curried
function has one more assertion in its chain than there are arguments to split, and each splits them
one later than the assertion before. The tests of a function that takes a collection call it as the
direct call does, with the wrapped collection in the last place of the first group. -/
theorem Template.tests_call {t : Template} {c : Config} {providers : Option ClassDecl}
    {f : TemplateFunction} {m : Method} (h : BasicTest.method? c t providers f = .ok (some m))
    (hparams : (f.params.map (·.name)).Nodup) :
    ∃ inner : List Param, (f.needsInnerParams = true → t.innerParams f.name = .ok inner) ∧
      let callee := c.api.shownAs ++ "::" ++ f.name
      let own := f.params.map (·.argument)
      let passed := (inner.filter fun p => p.name ∉ f.params.map (·.name)).map (·.argument)
      let args := own ++ if f.returnsCallable then passed else []
      let asserts (groups : List (List String)) := assertion (groups.foldl call callee)
      (∃ chain : List (List (List String)),
        m.body = asserts (groups f own passed) ::
          (if f.isCurried then "" :: chain.map asserts else []) ∧
        (groups f own passed).flatten = args ∧ (∀ groups ∈ chain, groups.flatten = args) ∧
        chain.length = (loopArguments f own).length + 1 ∧
        ∀ k ≤ (loopArguments f own).length,
          chain[k]? = some (splitAfter k (loopArguments f own) ++ finalGroups f own passed)) ∧
      ∃ ms, CollectionTest.methods c t providers f = .ok ms ∧
        ms.length = (if f.isCollectionFunction && !f.isVariadic then 2 else 0) ∧
        ∀ m' ∈ ms, ∃ collection init, f.collectionArgument? = some collection ∧
          own = init ++ ["$" ++ collection] ∧
          m'.body[1]? = some ("$actual = " ++
            (groups f (init ++ [CollectionTest.wrapped]) passed).foldl call callee ++ ";") := by
  unfold BasicTest.method? at h
  split at h
  · cases h
  rename_i hobject
  obtain ⟨shape, hshape, hmethod⟩ := Declaration.exists_of_map h
  obtain rfl := Option.some.inj hmethod
  obtain ⟨inner, rfl, hresolved⟩ := exists_of_callShape hshape
  refine ⟨inner, hresolved, ?_⟩
  intro callee own passed args asserts
  have hown : (CallShape.of f inner).ownArguments = own := CallShape.ownArguments_of f inner
  have hinner : (CallShape.of f inner).innerArguments = if f.returnsCallable then passed else [] :=
    CallShape.innerArguments_of f inner
  -- where no callable is returned, no call looks at the inner arguments
  have hgroups (own : List String) :
      groups f own (CallShape.of f inner).innerArguments = groups f own passed := by
    rw [hinner]
    unfold groups
    split <;> rfl
  have hchain : chainGroups f own (CallShape.of f inner).innerArguments =
      chainGroups f own passed := by
    rw [hinner]
    unfold chainGroups finalGroups
    split <;> rfl
  constructor
  · refine ⟨chainGroups f own passed, ?_, flatten_groups f own passed,
      fun _ => flatten_of_mem_chainGroups f own passed, length_chainGroups f own passed,
      fun _ => getElem?_chainGroups f own passed⟩
    have hbody : (methodWith c providers f (.of f inner)).body =
        assertion (directCall callee f (.of f inner)) ::
          if f.isCurried then "" :: (chainCalls callee f (.of f inner)).map assertion else [] :=
      rfl
    rw [hbody, directCall_eq, chainCalls_eq, List.map_map, hown, hgroups, hchain]
    rfl
  · obtain ⟨ms, hms, hlength, hcalls⟩ :=
      CollectionTest.exists_methods hshape (by simpa using hobject) c providers hparams
    refine ⟨ms, hms, hlength, fun m' hm' => ?_⟩
    obtain ⟨collection, init, hcollection, hinit, hbody⟩ := hcalls m' hm'
    rw [hgroups] at hbody
    exact ⟨collection, init, hcollection, hinit, hbody⟩

/-- A function that returns a callable has two assertions after the one about its direct call. -/
theorem Template.tests_call_chain :
    let t : Template := ⟨[chaining], {}, by simp⟩
    (∃ m, BasicTest.method? {} t none chaining = .ok (some m) ∧ m.body =
      ["$this->assertEquals($expected, P::chain($collection)($value, ...$functions));",
       "",
       "$this->assertEquals($expected, P::chain()($collection)($value, ...$functions));",
       "$this->assertEquals($expected, P::chain($collection)($value, ...$functions));"]) ∧
    ∃ ms, CollectionTest.methods {} t none chaining = .ok ms ∧ ms.length = 2 ∧
      ∀ m ∈ ms, m.body[1]? =
        some "$actual = P::chain($wrappedCollection)($value, ...$functions);" := by
  intro t
  have hinner : t.innerParams chaining.name = .ok chained := by cbv
  have hsignature : chaining.needsInnerParams = true ∧ chaining.returnsObject = false ∧
      chaining.returnsCallable = true ∧ chaining.isCurried = true ∧ chaining.isVariadic = false ∧
      chaining.collectionArgument? = some "collection" := by
    decide +kernel
  obtain ⟨hneeds, hobject, hcallable, hcurried, hvariadic, hcollection⟩ := hsignature
  obtain ⟨m, hm⟩ : ∃ m, BasicTest.method? {} t none chaining = .ok (some m) := by
    rw [BasicTest.method?, hobject, callShape, if_pos hneeds, hinner]
    exact ⟨_, rfl⟩
  obtain ⟨inner, hresolved, ⟨chain, hbody, -, -, hlength, hchain⟩, ms, hms, htwo, hcalls⟩ :=
    tests_call hm (by decide)
  obtain rfl : chained = inner := Except.ok.inj (hinner.symm.trans (hresolved hneeds))
  have hgroups (own inner : List String) : groups chaining own inner = [own, inner] := if_pos hcallable
  have hloop : loopArguments chaining (chaining.params.map (·.argument)) = ["$collection"] := by
    rw [loopArguments, hvariadic]
    decide +kernel
  rw [hloop] at hlength hchain
  obtain ⟨first, second, rfl⟩ := List.length_eq_two.1 hlength
  have hfirst := Option.some.inj (hchain 0 (by decide))
  have hsecond := Option.some.inj (hchain 1 (by decide))
  refine ⟨⟨m, hm, ?_⟩, ms, hms, ?_, fun m' hm' => ?_⟩
  · rw [hbody, hcurried, hfirst, hsecond, finalGroups, hcallable, hgroups]
    decide +kernel
  · rw [htwo, TemplateFunction.isCollectionFunction, hcollection, hvariadic]
    rfl
  · obtain ⟨collection, init, -, hinit, hcall⟩ := hcalls m' hm'
    obtain rfl : init = [] := by
      have hone : (init ++ ["$" ++ collection]).length = 1 := by
        rw [← hinit]
        rfl
      simpa using hone
    rw [hcall, hgroups]
    decide +kernel

end CurryGen

import CurryGen.Artifact.CollectionTest
import CurryGen.Proofs.Example.Rows
import CurryGen.Proofs.Tree.Source

/-!
# The parameters of generated tests

A test method takes the expected value, the declared parameters of its function and those of the
callable that the function leads to. Their names come from three places, and only the last two are
compared.

* `CallShape.map_name_testParams`: the names that a row of test data is spread over.
* `Template.Tests`: the methods that test a function.
* `Template.Takes`: the names that a function brings into its tests.
* `Template.names_nodup_iff`: when the names in a test are distinct.
-/

namespace CurryGen

open Code

/-! ## Names in a call shape -/

namespace CallShape

theorem map_mapLast {α β : Type} {g : α → α} {h : α → β} (hg : ∀ a, h (g a) = h a) (l : List α) :
    (mapLast g l).map h = l.map h := by
  rcases List.eq_nil_or_concat l with rfl | ⟨init, last, rfl⟩
  · rfl
  · rw [mapLast, List.concat_eq_append, List.dropLast_concat, List.getLast?_concat, Option.map_some,
      Option.toList_some, List.map_append, List.map_append, List.map_singleton, List.map_singleton,
      hg]

section
variable (f : TemplateFunction) (inner : List Param)

theorem map_name_own_of : (of f inner).own.map (·.name) = f.params.map (·.name) := by
  have hstrip : (f.params.map strip).map (·.name) = f.params.map (·.name) := by
    rw [List.map_map]
    rfl
  rw [own_of]
  split
  · exact (map_mapLast (g := fun p => { name := p.name, type := some "array" })
      (fun _ => rfl) _).trans hstrip
  · exact hstrip

/-- The inner parameters that are left. -/
theorem inner_of_eq : (of f inner).inner =
    if f.returnsCallable then
      (inner.filter fun p => p.name ∉ f.params.map (·.name)).map strip
    else [] := by
  have hnew (p : Param) : (!(f.params.map (·.name)).contains p.name) =
      decide (p.name ∉ f.params.map (·.name)) := by
    rw [List.contains_eq_mem, decide_not]
  simp only [inner_of, map_name_own_of, hnew]

/-- The names in a call shape: those of the declared parameters, then the new ones of the inner
parameters. -/
theorem map_name_testParams : (of f inner).testParams.map (·.name) =
    f.params.map (·.name) ++
      if f.returnsCallable then
        (inner.map (·.name)).filter (· ∉ f.params.map (·.name))
      else [] := by
  rw [testParams, List.map_append, map_name_own_of, inner_of_eq]
  congr 1
  split
  · rw [List.map_map, List.filter_map]
    rfl
  · rfl

end

section
variable {f : TemplateFunction} {inner : List Param}

theorem nodup_map_name_testParams (hparams : (f.params.map (·.name)).Nodup)
    (hinner : f.returnsCallable = true → (inner.map (·.name)).Nodup) :
    ((of f inner).testParams.map (·.name)).Nodup := by
  rw [map_name_testParams]
  split
  · rename_i hcallable
    refine List.nodup_append.2 ⟨hparams, (hinner hcallable).filter _, ?_⟩
    rintro a ha b hb rfl
    simpa [ha] using (List.mem_filter.1 hb).2
  · rwa [List.append_nil]

theorem mem_map_name_testParams {name : String} :
    name ∈ (of f inner).testParams.map (·.name) ↔
      name ∈ f.params.map (·.name) ∨
        f.returnsCallable = true ∧ name ∈ inner.map (·.name) := by
  rw [map_name_testParams, List.mem_append]
  split
  · rename_i hcallable
    rw [List.mem_filter, decide_eq_true_iff]
    tauto
  · rename_i hnot
    simp [hnot]

end

end CallShape

/-- A call shape is made of the inner parameters, where a call needs them. -/
theorem Template.exists_of_callShape {t : Template} {f : TemplateFunction} {shape : CallShape}
    (h : t.callShape f = .ok shape) :
    ∃ inner, shape = .of f inner ∧
      (f.needsInnerParams = true → t.innerParams f.name = .ok inner) := by
  unfold callShape at h
  split at h
  · obtain ⟨inner, hinner, rfl⟩ := Declaration.exists_of_map h
    exact ⟨inner, rfl, fun _ => hinner⟩
  · rename_i hnot
    exact ⟨[], (Except.ok.inj h).symm, fun hneeds => absurd hneeds hnot⟩

theorem TemplateFunction.needsInnerParams_of_returnsCallable {f : TemplateFunction}
    (h : f.returnsCallable = true) : f.needsInnerParams = true := by
  rw [needsInnerParams, h, Bool.true_or]

/-! ## Names in a test -/

/-- A method is the basic test of a function, or one of its tests with collections. -/
def Template.Tests (t : Template) (c : Config) (providers : Option ClassDecl) (f : TemplateFunction)
    (m : Method) : Prop :=
  BasicTest.method? c t providers f = .ok (some m) ∨
    ∃ ms, CollectionTest.methods c t providers f = .ok ms ∧ m ∈ ms

theorem Template.Tests.params {t : Template} {c : Config} {providers : Option ClassDecl}
    {f : TemplateFunction} {m : Method} (h : t.Tests c providers f m) :
    ∃ shape, t.callShape f = .ok shape ∧ m.params = TestClass.testParams shape := by
  rcases h with hbasic | ⟨ms, hms, hm⟩
  · obtain ⟨shape, hshape, rfl⟩ := BasicTest.exists_of_method? hbasic
    exact ⟨shape, hshape, rfl⟩
  · rcases CollectionTest.exists_of_methods hms with rfl | ⟨collection, shape, -, hshape, rfl⟩
    · cases hm
    · refine ⟨shape, hshape, ?_⟩
      simp only [List.mem_cons, List.not_mem_nil, or_false] at hm
      rcases hm with rfl | rfl <;> rfl

/-- A function brings a name into its tests: that of a declared parameter, or of one of the callable
that a call of the function gives. -/
def Template.Takes (t : Template) (f : TemplateFunction) (name : String) : Prop :=
  name ∈ f.params.map (·.name) ∨
    f.returnsCallable = true ∧ ∃ inner, t.innerParams f.name = .ok inner ∧
      name ∈ inner.map (·.name)

/-- **The names in a test method are distinct just when its function has no parameter `expected`**,
given that the names of the declared parameters are distinct and those of the inner ones are. What
follows the expected value is distinct in any case, and holds the names that the function takes, each
of them. So the local variable for a wrapped collection is none of the parameters just when the
function does not take its name. -/
theorem Template.names_nodup_iff {t : Template} {c : Config} {providers : Option ClassDecl}
    {f : TemplateFunction} {m : Method} (h : t.Tests c providers f m)
    (hparams : (f.params.map (·.name)).Nodup)
    (hinner : ∀ inner, t.innerParams f.name = .ok inner → (inner.map (·.name)).Nodup) :
    (∃ names, m.params.map (·.name) = "expected" :: names ∧ names.Nodup ∧
      ∀ name, name ∈ names ↔ t.Takes f name) ∧
    ((m.params.map (·.name)).Nodup ↔ ¬t.Takes f "expected") ∧
    (CollectionTest.wrapped ∉ m.params.map ("$" ++ ·.name) ↔ ¬t.Takes f "wrappedCollection") := by
  obtain ⟨shape, hshape, hm⟩ := h.params
  obtain ⟨inner, rfl, hresolved⟩ := exists_of_callShape hshape
  have hresolved (hcallable : f.returnsCallable = true) : t.innerParams f.name = .ok inner :=
    hresolved (TemplateFunction.needsInnerParams_of_returnsCallable hcallable)
  have hnodup : ((CallShape.of f inner).testParams.map (·.name)).Nodup :=
    CallShape.nodup_map_name_testParams hparams fun hcallable => hinner inner (hresolved hcallable)
  have hmem (name : String) :
      name ∈ (CallShape.of f inner).testParams.map (·.name) ↔ t.Takes f name := by
    rw [CallShape.mem_map_name_testParams, Takes]
    refine or_congr_right (and_congr_right fun hcallable => ?_)
    rw [hresolved hcallable]
    simp
  have hnames : m.params.map (·.name) =
      "expected" :: (CallShape.of f inner).testParams.map (·.name) := by
    rw [hm]
    rfl
  refine ⟨⟨_, hnames, hnodup, hmem⟩, ?_, ?_⟩
  · rw [hnames, List.nodup_cons, hmem, and_iff_left hnodup]
  · have hvariables : m.params.map ("$" ++ ·.name) = (m.params.map (·.name)).map ("$" ++ ·) :=
      List.map_map.symm
    have hinjective : Function.Injective ("$" ++ ·) := fun s t h => (String.append_right_inj _).1 h
    have hwrapped : CollectionTest.wrapped = "$" ++ "wrappedCollection" := by decide +kernel
    rw [hvariables, hwrapped, List.mem_map_of_injective hinjective, hnames, List.mem_cons, hmem]
    simp

/-- A function that takes a collection and returns a callable with parameters of both names. -/
def clashing : TemplateFunction where
  definition :=
    { doc := some "/** @return callable */"
      name := "compare"
      params := [{ name := "list" }]
      body := some [.mk (.ret (some (.closure
        ⟨false, [{ name := "expected" }, { name := "wrappedCollection" }], [], none⟩
        (.block [])))) [] []] }

theorem Template.names_nodup_iff_compare :
    let t : Template := ⟨[clashing], {}, by simp⟩
    ∃ m ms, BasicTest.method? {} t none clashing = .ok (some m) ∧
      CollectionTest.methods {} t none clashing = .ok ms ∧ ms.length = 2 ∧
      ∀ m' ∈ m :: ms, ¬(m'.params.map (·.name)).Nodup ∧
        CollectionTest.wrapped ∈ m'.params.map ("$" ++ ·.name) := by
  intro t
  have hinner : t.innerParams clashing.name =
      .ok [{ name := "expected" }, { name := "wrappedCollection" }] := by cbv
  have hnodup : ∀ inner, t.innerParams clashing.name = .ok inner → (inner.map (·.name)).Nodup := by
    intro inner h
    rw [hinner] at h
    cases h
    decide
  have htakes (name : String) (hname : name = "expected" ∨ name = "wrappedCollection") :
      t.Takes clashing name :=
    .inr ⟨by decide +kernel, _, hinner, by simpa using hname⟩
  have hsignature : clashing.needsInnerParams = true ∧ clashing.returnsObject = false ∧
      clashing.collectionArgument? = some "list" ∧ clashing.isVariadic = false := by
    decide +kernel
  obtain ⟨hneeds, hobject, hcollection, hvariadic⟩ := hsignature
  obtain ⟨shape, hshape⟩ : ∃ shape, t.callShape clashing = .ok shape := by
    rw [callShape, if_pos hneeds, hinner]
    exact ⟨_, rfl⟩
  obtain ⟨m, hm⟩ : ∃ m, BasicTest.method? {} t none clashing = .ok (some m) := by
    rw [BasicTest.method?, hobject, hshape]
    exact ⟨_, rfl⟩
  obtain ⟨ms, hms, hlength⟩ :
      ∃ ms, CollectionTest.methods {} t none clashing = .ok ms ∧ ms.length = 2 := by
    rw [CollectionTest.methods, hcollection, hobject, hvariadic, hshape]
    exact ⟨_, rfl, rfl⟩
  refine ⟨m, ms, hm, hms, hlength, fun m' hm' => ?_⟩
  have htests : t.Tests {} none clashing m' := by
    rcases List.mem_cons.1 hm' with rfl | hm'
    · exact .inl hm
    · exact .inr ⟨ms, hms, hm'⟩
  obtain ⟨-, hexpected, hwrapped⟩ := names_nodup_iff htests (by decide) hnodup
  refine ⟨fun h => hexpected.1 h (htakes _ (.inl rfl)), ?_⟩
  by_contra hnot
  exact hwrapped.1 hnot (htakes _ (.inr rfl))

end CurryGen

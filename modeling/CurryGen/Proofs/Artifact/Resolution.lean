import CurryGen.Proofs.Artifact.ClassUse

/-!
# What class names in test files stand for

Test files use classes by their last segments, and the library class by its alias. Classes whose
configured names have several segments are imported where the namespace of the tests does not hold
them. A name with one segment is never imported, so it is looked for in that namespace.

* `Config.testNames`: the uses of class names in test files, each with the class that is meant.
* `TestClass.Imports`: what the imports of a test file are.
* `TestClass.Imports.resolve_iff`: a use stands for the class that is meant unless this is a global
  one and the tests are not.
* `TestClass.classNames_resolve_iff`: when all class names in the two test files stand for what is meant.
-/

namespace CurryGen

open Code Scan

/-! ## Configured classes -/

namespace Config

/-- The classes that both test classes take their members from. -/
def inherited (c : Config) : List String := c.tests.baseClass :: c.tests.providerTrait.toList

/-- The classes that the methods of collection tests use. -/
def fixtures (c : Config) : List String :=
  [c.tests.fullFixture, c.tests.simpleFixture, c.tests.collectionInterface]

/-- The classes that test files use by their last segments. -/
def testClasses (c : Config) : List String := c.inherited ++ c.fixtures

/-- The uses of class names in test files, and the classes that are meant. -/
def testNames (c : Config) : List (ClassUse × String) :=
  (⟨.parent, shortName c.tests.baseClass⟩, c.tests.baseClass) ::
    (c.tests.providerTrait.toList.map fun name => (⟨.trait, shortName name⟩, name)) ++
    [(⟨.construction, shortName c.tests.fullFixture⟩, c.tests.fullFixture),
     (⟨.construction, shortName c.tests.simpleFixture⟩, c.tests.simpleFixture),
     (⟨.test, shortName c.tests.collectionInterface⟩, c.tests.collectionInterface),
     (⟨.scope, c.api.shownAs⟩, c.api.qualifiedClass)]

/-- The configured names that test files are written with are names. -/
structure NamesValid (c : Config) : Prop where
  namespaceName : c.tests.namespaceName = "" ∨ isClassName c.tests.namespaceName = true
  classes : ∀ name ∈ c.testClasses, isClassName name = true
  library : isClassName c.api.qualifiedClass = true
  shownAs : isIdentifier c.api.shownAs = true
  valuesMethod : isIdentifier c.tests.valuesMethod = true
  toArrayMethod : isIdentifier c.tests.toArrayMethod = true

/-- Different classes are used by different names. Names are the same when `fold` makes them so. -/
def NamesDistinct (c : Config) (fold : String → String) : Prop :=
  (c.testNames.map fun b => fold b.1.name).Nodup

variable {c : Config} {fold : String → String} {u v : ClassUse} {name other : String}

theorem parent_mem_testNames (c : Config) :
    (⟨.parent, shortName c.tests.baseClass⟩, c.tests.baseClass) ∈ c.testNames := by
  simp [testNames]

theorem trait_mem_testNames (h : name ∈ c.tests.providerTrait.toList) :
    (⟨.trait, shortName name⟩, name) ∈ c.testNames := by
  simp [testNames, Option.mem_toList.1 h]

theorem construction_mem_testNames (h : name ∈ [c.tests.fullFixture, c.tests.simpleFixture]) :
    (⟨.construction, shortName name⟩, name) ∈ c.testNames := by
  rcases List.mem_pair.1 h with rfl | rfl <;> simp [testNames]

theorem test_mem_testNames (c : Config) :
    (⟨.test, shortName c.tests.collectionInterface⟩, c.tests.collectionInterface) ∈
      c.testNames := by
  simp [testNames]

theorem scope_mem_testNames (c : Config) :
    (⟨.scope, c.api.shownAs⟩, c.api.qualifiedClass) ∈ c.testNames := by
  simp [testNames]

/-- The library class is used by its alias, the others by their last segments. -/
theorem cases_of_mem_testNames (h : (u, name) ∈ c.testNames) :
    (u = ⟨.scope, c.api.shownAs⟩ ∧ name = c.api.qualifiedClass) ∨
      (u.place ≠ .scope ∧ u.name = shortName name ∧ name ∈ c.testClasses) := by
  simp only [testNames, List.cons_append, List.mem_cons, List.mem_append, List.mem_map,
    Prod.mk.injEq, List.not_mem_nil, or_false] at h
  rcases h with ⟨rfl, rfl⟩ | ⟨trait, htrait, rfl, rfl⟩ | ⟨rfl, rfl⟩ | ⟨rfl, rfl⟩ | ⟨rfl, rfl⟩ | h
  · exact .inr ⟨nofun, rfl, by simp [testClasses, inherited, fixtures]⟩
  · exact .inr ⟨nofun, rfl, by simp [testClasses, inherited, Option.mem_toList.1 htrait]⟩
  · exact .inr ⟨nofun, rfl, by simp [testClasses, inherited, fixtures]⟩
  · exact .inr ⟨nofun, rfl, by simp [testClasses, inherited, fixtures]⟩
  · exact .inr ⟨nofun, rfl, by simp [testClasses, inherited, fixtures]⟩
  · exact .inl h

theorem exists_mem_testNames (h : name ∈ c.testClasses) :
    ∃ u, (u, name) ∈ c.testNames ∧ u.name = shortName name := by
  simp only [testClasses, inherited, fixtures, List.cons_append, List.mem_cons, List.mem_append,
    List.not_mem_nil, or_false] at h
  rcases h with rfl | htrait | rfl | rfl | rfl
  · exact ⟨_, c.parent_mem_testNames, rfl⟩
  · exact ⟨_, trait_mem_testNames htrait, rfl⟩
  · exact ⟨_, construction_mem_testNames (by simp), rfl⟩
  · exact ⟨_, construction_mem_testNames (by simp), rfl⟩
  · exact ⟨_, c.test_mem_testNames, rfl⟩

theorem NamesDistinct.eq (h : c.NamesDistinct fold) (hu : (u, name) ∈ c.testNames)
    (hv : (v, other) ∈ c.testNames) (hname : fold u.name = fold v.name) : u = v ∧ name = other := by
  have hinj := List.inj_on_of_nodup_map h hu hv hname
  exact Prod.mk.inj hinj

end Config

/-! ## Imports -/

section

variable {s name : String} {c : Config}

theorem Api.mem_addImports {imports names : List String} :
    s ∈ Api.addImports imports names ↔ s ∈ imports ∨ s ∈ names ∧ isQualified s = true := by
  unfold addImports
  induction names generalizing imports with
  | nil => simp
  | cons name names ih =>
    rw [List.foldl_cons, ih, List.mem_cons]
    split
    · rename_i hname
      have hqualified : isQualified name = true := (Bool.and_eq_true_iff.1 hname).1
      rw [List.mem_append, List.mem_singleton]
      grind
    · rename_i hname
      have hmem : isQualified name = true → name ∈ imports := by simpa using hname
      grind

/-- An import without an alias gives the last segment. -/
theorem importBinding_of_isClassName (h : isClassName s = true) :
    importBinding s = (shortName s, s) := by
  rw [importBinding, splitAt_of_notMem (space_notMem_of_isClassName h)]

/-- The import of the library class gives its alias. -/
theorem importBinding_importLine (h : c.NamesValid) :
    importBinding c.api.importLine = (c.api.shownAs, c.api.qualifiedClass) := by
  unfold ApiConfig.importLine
  split
  · rename_i hsame
    have hshort : shortName c.api.qualifiedClass = c.api.shownAs := by
      have hid := h.shownAs
      rw [hsame] at hid ⊢
      exact shortName_qualify hid _
    rw [importBinding_of_isClassName h.library, hshort]
  · have hshown : ' ' ∉ c.api.shownAs.toList := fun hmem =>
      absurd (isNameChar_of_isIdentifier h.shownAs _ hmem) (by decide)
    have hsplit : Text.splitAt ' ' (c.api.qualifiedClass ++ " as " ++ c.api.shownAs) =
        [c.api.qualifiedClass, "as", c.api.shownAs] := by
      have has : c.api.qualifiedClass ++ " as " ++ c.api.shownAs =
          c.api.qualifiedClass ++ String.singleton ' ' ++
            ("as" ++ String.singleton ' ' ++ c.api.shownAs) := by
        rw [← String.toList_inj]
        simp
      rw [has, splitAt_append, splitAt_append,
        splitAt_of_notMem (space_notMem_of_isClassName h.library), splitAt_of_notMem hshown]
      rfl
    rw [importBinding, hsplit]
    rfl

end

namespace TestClass

/-- The file imports the library class and test classes with several segments, among them those of
`names` that its namespace does not hold. -/
structure Imports (c : Config) (names : List String) (f : ClassFile) : Prop where
  namespaceName : f.namespaceName = Api.properNamespace c.tests.namespaceName
  library : c.api.importLine ∈ f.imports
  imported : ∀ s ∈ f.imports, s = c.api.importLine ∨ s ∈ c.testClasses ∧ isQualified s = true
  needed : ∀ name ∈ names, isQualified name = true →
    name ∈ f.imports ∨ qualify c.tests.namespaceName (shortName name) = name

namespace Imports

variable {c : Config} {fold : String → String} {names : List String} {f : ClassFile}
variable (h : Imports c names f) (hvalid : c.NamesValid)
include h hvalid

/-- What an import gives is the name of a class that test files use. -/
theorem exists_mem_testNames {b : String × String} (hb : b ∈ f.imports.map importBinding) :
    ∃ u, (u, b.2) ∈ c.testNames ∧ u.name = b.1 ∧ (u.place = .scope ∨ isQualified b.2 = true) := by
  obtain ⟨s, hs, rfl⟩ := List.mem_map.1 hb
  rcases h.imported s hs with rfl | ⟨hclass, hqualified⟩
  · rw [importBinding_importLine hvalid]
    exact ⟨_, c.scope_mem_testNames, rfl, .inl rfl⟩
  · rw [importBinding_of_isClassName (hvalid.classes s hclass)]
    obtain ⟨u, hu, hname⟩ := Config.exists_mem_testNames hclass
    exact ⟨u, hu, hname, .inr hqualified⟩

theorem inNamespace_eq (name : String) :
    f.inNamespace name = qualify c.tests.namespaceName name := by
  unfold ClassFile.inNamespace
  rw [h.namespaceName, Api.properNamespace]
  by_cases hns : c.tests.namespaceName = ""
  · rw [if_pos hns, qualify, if_pos hns]
  · rw [if_neg hns, qualify_eq (hvalid.namespaceName.resolve_left hns)]

variable (hdistinct : c.NamesDistinct fold) {u : ClassUse} {name : String}
  (hu : (u, name) ∈ c.testNames)
include hdistinct hu

/-- A use stands for the class that is meant if this is imported, and else for one in the file's
namespace. -/
theorem resolve_eq : f.resolve fold u.name =
    if (u.name, name) ∈ f.imports.map importBinding then name else f.inNamespace u.name := by
  have heq {b : String × String} (hb : b ∈ f.imports.map importBinding)
      (hfold : fold b.1 = fold u.name) : b = (u.name, name) := by
    obtain ⟨v, hv, hname, -⟩ := h.exists_mem_testNames hvalid hb
    rw [← hname] at hfold
    obtain ⟨rfl, hclass⟩ := hdistinct.eq hv hu hfold
    exact Prod.ext hname.symm hclass
  unfold ClassFile.resolve
  split
  · rename_i b hfind
    have hb := List.mem_of_find?_eq_some hfind
    obtain rfl := heq hb (by simpa using List.find?_some hfind)
    rw [if_pos hb]
  · rename_i hnone
    rw [if_neg fun hmem => by simpa using List.find?_eq_none.1 hnone _ hmem]

/-- The library class is always imported. -/
theorem resolve_of_place (hplace : u.place = .scope) : f.resolve fold u.name = name := by
  rcases Config.cases_of_mem_testNames hu with ⟨rfl, rfl⟩ | ⟨hother, -⟩
  · have hmem := List.mem_map_of_mem (f := importBinding) h.library
    rw [importBinding_importLine hvalid] at hmem
    rw [h.resolve_eq hvalid hdistinct hu, if_pos hmem]
  · exact absurd hplace hother

/-- Another class is missed if it is a global one and the file is not. -/
theorem resolve_iff (hplace : u.place ≠ .scope) (hname : name ∈ names) :
    f.resolve fold u.name = name ↔ c.tests.namespaceName = "" ∨ isQualified name = true := by
  have hcases := Config.cases_of_mem_testNames hu
  rw [or_iff_right fun hscope => hplace (by rw [hscope.1])] at hcases
  obtain ⟨-, hshort, hclass⟩ := hcases
  rw [h.resolve_eq hvalid hdistinct hu]
  split
  · rename_i hmem
    obtain ⟨v, hv, hvname, hqualified⟩ := h.exists_mem_testNames hvalid hmem
    obtain ⟨rfl, -⟩ := hdistinct.eq hv hu (congrArg fold hvname)
    exact iff_of_true rfl (.inr (hqualified.resolve_left hplace))
  · rename_i hmem
    have hunimported : name ∉ f.imports := fun himported => hmem <| by
      rw [hshort, ← importBinding_of_isClassName (hvalid.classes name hclass)]
      exact List.mem_map_of_mem himported
    rw [hshort, h.inNamespace_eq hvalid]
    cases hqualified : isQualified name with
    | true => simp [(h.needed name hname hqualified).resolve_left hunimported]
    | false =>
      have hslash := isQualified_eq_false_iff.1 hqualified
      rw [shortName_of_notMem hslash, qualify_eq_self_iff hslash]
      simp

end Imports

theorem Imports.mono {c : Config} {names smaller : List String} {f : ClassFile}
    (h : Imports c names f) (hsubset : smaller ⊆ names) : Imports c smaller f :=
  { h with needed := fun name hname => h.needed name (hsubset hname) }

theorem imports_file (c : Config) (fileName : String) (methods : List Method) :
    Imports c c.inherited (file c fileName methods) where
  namespaceName := rfl
  library := by simp [file, imports]
  imported s hs := by
    rcases List.mem_append.1 hs with hs | hs
    · obtain ⟨hmem, hneeded⟩ := List.mem_filter.1 hs
      exact .inr ⟨List.mem_append_left _ hmem, (Bool.and_eq_true_iff.1 hneeded).1⟩
    · exact .inl (List.mem_singleton.1 hs)
  needed name hname hqualified := by
    by_cases hheld : qualify c.tests.namespaceName (shortName name) = name
    · exact .inr hheld
    · refine .inl (List.mem_append_left _ (List.mem_filter.2 ⟨hname, ?_⟩))
      simp [hqualified, hheld]

/-- More imports of test classes. -/
theorem Imports.addImports {c : Config} {names fixtures : List String} {f : ClassFile}
    (h : Imports c names f) (hfixtures : fixtures ⊆ c.testClasses) :
    Imports c (names ++ fixtures) { f with imports := Api.addImports f.imports fixtures } where
  namespaceName := h.namespaceName
  library := Api.mem_addImports.2 (.inl h.library)
  imported s hs := by
    rcases Api.mem_addImports.1 hs with hs | ⟨hs, hqualified⟩
    · exact h.imported s hs
    · exact .inr ⟨hfixtures hs, hqualified⟩
  needed name hname hqualified := by
    rcases List.mem_append.1 hname with hname | hname
    · exact (h.needed name hname hqualified).imp_left fun hmem => Api.mem_addImports.2 (.inl hmem)
    · exact .inl (Api.mem_addImports.2 (.inr ⟨hname, hqualified⟩))

/-! ## Uses -/

/-- The uses are of the library class and of the classes `names`. -/
structure Uses (c : Config) (names : List String) (us : List ClassUse) : Prop where
  meant : ∀ u ∈ us, ∃ name, (u, name) ∈ c.testNames ∧ (u.place = .scope ∨ name ∈ names)
  used : ∀ name ∈ names, ∃ u ∈ us, (u, name) ∈ c.testNames ∧ u.place ≠ .scope

/-- Every use stands for the class that is meant. -/
def Resolves (c : Config) (fold : String → String) (f : ClassFile) (us : List ClassUse) : Prop :=
  ∀ u ∈ us, ∃ name, (u, name) ∈ c.testNames ∧ f.resolve fold u.name = name

section

variable {c : Config} {fold : String → String} {names : List String} {f : ClassFile}
  {us : List ClassUse}

theorem Imports.resolves_iff_of_uses (h : Imports c names f) (hvalid : c.NamesValid)
    (hdistinct : c.NamesDistinct fold) (huses : Uses c names us) :
    Resolves c fold f us ↔
      c.tests.namespaceName = "" ∨ ∀ name ∈ names, isQualified name = true := by
  constructor
  · intro hresolves
    refine or_iff_not_imp_left.2 fun hns name hname => ?_
    obtain ⟨u, hu, hmem, hplace⟩ := huses.used name hname
    obtain ⟨name', hmem', hresolve⟩ := hresolves u hu
    obtain ⟨-, rfl⟩ := hdistinct.eq hmem hmem' rfl
    exact ((h.resolve_iff hvalid hdistinct hmem hplace hname).1 hresolve).resolve_left hns
  · intro hglobal u hu
    obtain ⟨name, hmem, hscope⟩ := huses.meant u hu
    refine ⟨name, hmem, ?_⟩
    by_cases hplace : u.place = .scope
    · exact h.resolve_of_place hvalid hdistinct hmem hplace
    · have hname := hscope.resolve_left hplace
      exact (h.resolve_iff hvalid hdistinct hmem hplace hname).2 (hglobal.imp_right (· name hname))

/-- The uses in a test class are those of its declaration and of its methods. -/
theorem exists_uses {fixtures : List String}
    (hparent : f.content.parent = some (shortName c.tests.baseClass))
    (htraits : f.content.traits = c.tests.providerTrait.toList.map shortName)
    (hmethods : ∀ m ∈ f.content.methods, ∃ us, m.classUses? = some us ∧
      ∀ u ∈ us, ∃ name, (u, name) ∈ c.testNames ∧ (u.place = .scope ∨ name ∈ fixtures))
    (hfixtures : ∀ name ∈ fixtures, ∃ m ∈ f.content.methods, ∃ us, m.classUses? = some us ∧
      ∃ u ∈ us, (u, name) ∈ c.testNames ∧ u.place ≠ .scope) :
    ∃ us, f.classUses? = some us ∧ Uses c (c.inherited ++ fixtures) us := by
  obtain ⟨us, hus, hmem⟩ := ClassFile.exists_classUses? fun m hm =>
    (hmethods m hm).imp fun _ => And.left
  refine ⟨us, hus, fun u hu => ?_, fun name hname => ?_⟩
  · rcases (hmem u).1 hu with ⟨name, hname, rfl⟩ | ⟨name, hname, rfl⟩ | ⟨m, hm, vs, hvs, hu⟩
    · obtain rfl : shortName c.tests.baseClass = name := by simpa [hparent] using hname
      exact ⟨_, c.parent_mem_testNames, .inr List.mem_cons_self⟩
    · rw [htraits] at hname
      obtain ⟨trait, htrait, rfl⟩ := List.mem_map.1 hname
      have hinherited : trait ∈ c.inherited := List.mem_cons_of_mem _ htrait
      exact ⟨trait, Config.trait_mem_testNames htrait, .inr (List.mem_append_left _ hinherited)⟩
    · obtain ⟨vs', hvs', hmeant⟩ := hmethods m hm
      obtain rfl : vs = vs' := Option.some.inj (hvs.symm.trans hvs')
      obtain ⟨name, hname, hplace⟩ := hmeant u hu
      exact ⟨name, hname, hplace.imp_right (List.mem_append_right _)⟩
  · rcases List.mem_append.1 hname with hname | hname
    · rcases List.mem_cons.1 hname with rfl | htrait
      · exact ⟨_, (hmem _).2 (.inl ⟨_, hparent, rfl⟩), c.parent_mem_testNames, nofun⟩
      · have hshort : shortName name ∈ f.content.traits := htraits ▸ List.mem_map_of_mem htrait
        exact ⟨_, (hmem _).2 (.inr (.inl ⟨_, hshort, rfl⟩)), Config.trait_mem_testNames htrait,
          nofun⟩
    · obtain ⟨m, hm, vs, hvs, u, hu, hrest⟩ := hfixtures name hname
      exact ⟨u, (hmem u).2 (.inr (.inr ⟨m, hm, vs, hvs, hu⟩)), hrest⟩

end

end TestClass

/-! ## Test files -/

/-- The classes that the methods of a collection test use, if there are methods. -/
def CollectionTest.fixturesIn (c : Config) (file : ClassFile) : List String :=
  if file.content.methods.isEmpty then [] else c.fixtures

theorem CollectionTest.fixturesIn_of_mem {c : Config} {file : ClassFile} {m : Method}
    (hm : m ∈ file.content.methods) : CollectionTest.fixturesIn c file = c.fixtures := by
  rw [CollectionTest.fixturesIn, if_neg]
  simpa using List.ne_nil_of_mem hm

theorem CollectionTest.exists_of_mem_fixturesIn {c : Config} {file : ClassFile} {name : String}
    (h : name ∈ CollectionTest.fixturesIn c file) : ∃ m, m ∈ file.content.methods := by
  unfold CollectionTest.fixturesIn at h
  split at h
  · cases h
  · rename_i hmethods
    exact List.exists_mem_of_ne_nil _ (by simpa using hmethods)

section

variable {c : Config} {t : Template} {providers : Option ClassDecl} {file : ClassFile}
variable (hspelled : ∀ f ∈ t.functions, f.Spelled) (hvalid : c.NamesValid)
include hspelled hvalid

theorem BasicTest.exists_uses (h : BasicTest.file c t providers = .ok file) :
    ∃ us, file.classUses? = some us ∧ TestClass.Uses c c.inherited us := by
  have hmethods : ∀ m ∈ file.content.methods, ∃ us, m.classUses? = some us ∧
      ∀ u ∈ us, ∃ name, (u, name) ∈ c.testNames ∧
        (u.place = .scope ∨ name ∈ ([] : List String)) := by
    intro m hm
    obtain ⟨f, hf, shape, hshape, rfl⟩ := BasicTest.exists_of_mem_file h hm
    obtain ⟨hown, hinner⟩ := isArgument_of_callShape hspelled hf hshape
    obtain ⟨us, hus, hscope⟩ := BasicTest.exists_classUses? (stands_identifier hvalid.shownAs)
      (hspelled f hf).name hown hinner providers
    refine ⟨us, hus, fun u hu => ?_⟩
    rw [hscope u hu]
    exact ⟨_, c.scope_mem_testNames, .inl rfl⟩
  obtain ⟨methods, -, rfl⟩ := Declaration.exists_of_map (f := fun methods => _) h
  have huses := TestClass.exists_uses rfl rfl hmethods (by simp)
  rwa [List.append_nil] at huses

/-- What the method for a fixture uses. -/
theorem CollectionTest.classUses?_of_callShape {f : TemplateFunction} {shape : CallShape}
    {collection fixture : String} (hf : f ∈ t.functions) (hshape : t.callShape f = .ok shape)
    (hcollection : f.collectionArgument? = some collection)
    (hmem : fixture ∈ [c.tests.fullFixture, c.tests.simpleFixture]) (suffix : String) :
    (CollectionTest.methodWith c providers f shape collection fixture suffix).classUses? =
      some [⟨.construction, shortName fixture⟩, ⟨.scope, c.api.shownAs⟩,
        ⟨.test, shortName c.tests.collectionInterface⟩] := by
  have hfixture {name : String} (hname : name ∈ c.fixtures) : Stands ⟨.name, shortName name⟩ [] :=
    stands_identifier (isIdentifier_shortName (hvalid.classes name (List.mem_append_right _ hname)))
  obtain ⟨hown, hinner⟩ := isArgument_of_callShape hspelled hf hshape
  exact CollectionTest.classUses?_methodWith (stands_identifier hvalid.shownAs)
    (hspelled f hf).name hown hinner ((hspelled f hf).collection hcollection)
    (hfixture (List.mem_append_left [c.tests.collectionInterface] hmem))
    (hfixture (by simp [Config.fixtures])) (stands_identifier hvalid.toArrayMethod)
    (stands_identifier hvalid.valuesMethod) providers suffix

theorem CollectionTest.exists_uses (h : CollectionTest.file c t providers = .ok file) :
    ∃ us, file.classUses? = some us ∧
      TestClass.Uses c (c.inherited ++ CollectionTest.fixturesIn c file) us := by
  refine TestClass.exists_uses ?_ ?_ (fun m hm => ?_) fun name hname => ?_
  · obtain ⟨tests, -, rfl⟩ := Declaration.exists_of_map (f := fun tests => _) h
    rfl
  · obtain ⟨tests, -, rfl⟩ := Declaration.exists_of_map (f := fun tests => _) h
    rfl
  · rw [CollectionTest.fixturesIn_of_mem hm]
    obtain ⟨f, hf, shape, collection, hshape, hcollection, -, -, fixture, hmem, suffix, rfl⟩ :=
      CollectionTest.exists_of_mem_file h hm
    refine ⟨_, CollectionTest.classUses?_of_callShape hspelled hvalid hf hshape hcollection hmem
      suffix, List.forall_mem_cons.2 ⟨?_,
      List.forall_mem_cons.2 ⟨?_, List.forall_mem_singleton.2 ?_⟩⟩⟩
    · exact ⟨_, Config.construction_mem_testNames hmem,
        .inr (List.mem_append_left [c.tests.collectionInterface] hmem)⟩
    · exact ⟨_, c.scope_mem_testNames, .inl rfl⟩
    · exact ⟨_, c.test_mem_testNames, .inr (by simp [Config.fixtures])⟩
  · obtain ⟨m, hm⟩ := CollectionTest.exists_of_mem_fixturesIn hname
    rw [CollectionTest.fixturesIn_of_mem hm] at hname
    obtain ⟨f, hf, shape, collection, hshape, hcollection, hfull, hsimple, -⟩ :=
      CollectionTest.exists_of_mem_file h hm
    have huses {fixture : String} :=
      @CollectionTest.classUses?_of_callShape c t providers hspelled hvalid f shape collection
        fixture hf hshape hcollection
    have hfirst := huses List.mem_cons_self ""
    have hsecond := huses (List.mem_pair.2 (.inr rfl)) "Simple"
    simp only [Config.fixtures, List.mem_cons, List.not_mem_nil, or_false] at hname
    rcases hname with rfl | rfl | rfl
    · exact ⟨_, hfull, _, hfirst, _, by simp, Config.construction_mem_testNames (by simp), nofun⟩
    · exact ⟨_, hsimple, _, hsecond, _, by simp, Config.construction_mem_testNames (by simp), nofun⟩
    · exact ⟨_, hfull, _, hfirst, _, by simp, c.test_mem_testNames, nofun⟩

end

theorem BasicTest.imports_file {c : Config} {t : Template} {providers : Option ClassDecl}
    {file : ClassFile} (h : BasicTest.file c t providers = .ok file) :
    TestClass.Imports c c.inherited file := by
  obtain ⟨methods, -, rfl⟩ := Declaration.exists_of_map (f := fun methods => _) h
  exact TestClass.imports_file c _ _

theorem CollectionTest.imports_file {c : Config} {t : Template} {providers : Option ClassDecl}
    {file : ClassFile} (h : CollectionTest.file c t providers = .ok file) :
    TestClass.Imports c c.testClasses file := by
  obtain ⟨tests, -, rfl⟩ := Declaration.exists_of_map (f := fun tests => _) h
  exact (TestClass.imports_file c _ _).addImports (List.subset_append_right _ _)

/-- **The class names in the test files** stand for the classes that are meant just when no global
class is used outside the global namespace. -/
theorem TestClass.classNames_resolve_iff {c : Config} {path : Path} {text : String} {source : SourceFile}
    {t : Template} {providers : Option ClassDecl} {basic collection : ClassFile}
    {fold : String → String} (hread : SourceFile.read path text = .ok source)
    (ht : c.findTemplate source = .ok t) (hvalid : c.NamesValid)
    (hdistinct : c.NamesDistinct fold) (hbasic : BasicTest.file c t providers = .ok basic)
    (hcollection : CollectionTest.file c t providers = .ok collection) :
    ∃ us vs, basic.classUses? = some us ∧ collection.classUses? = some vs ∧
      (∀ u ∈ us ++ vs, ∃ name, (u, name) ∈ c.testNames) ∧
      (Resolves c fold basic us ↔
        c.tests.namespaceName = "" ∨ ∀ name ∈ c.inherited, isQualified name = true) ∧
      (Resolves c fold collection vs ↔
        c.tests.namespaceName = "" ∨ ∀ name ∈ c.inherited ++ CollectionTest.fixturesIn c collection,
          isQualified name = true) := by
  have hspelled := spelled_of_findTemplate hread ht
  obtain ⟨us, hus, huses⟩ := BasicTest.exists_uses hspelled hvalid hbasic
  obtain ⟨vs, hvs, hvuses⟩ := CollectionTest.exists_uses hspelled hvalid hcollection
  have hsubset : c.inherited ++ CollectionTest.fixturesIn c collection ⊆ c.testClasses := by
    refine List.append_subset.2 ⟨List.subset_append_left _ _, ?_⟩
    unfold CollectionTest.fixturesIn
    split
    · exact List.nil_subset _
    · exact List.subset_append_right _ _
  refine ⟨us, vs, hus, hvs, List.forall_mem_append.2 ⟨fun u hu => ?_, fun u hu => ?_⟩, ?_, ?_⟩
  · exact (huses.meant u hu).imp fun _ => And.left
  · exact (hvuses.meant u hu).imp fun _ => And.left
  · exact (BasicTest.imports_file hbasic).resolves_iff_of_uses hvalid hdistinct huses
  · exact ((CollectionTest.imports_file hcollection).mono hsubset).resolves_iff_of_uses hvalid
      hdistinct hvuses

/-- A configuration whose base class is a global one. -/
def globalBase : Config where
  template := ⟨⟨"T.php"⟩, "T"⟩
  tests := { baseClass := "TestCase" }

/-- The base class is looked for in the namespace of the tests. -/
theorem TestClass.classNames_resolve_iff_global :
    ∃ source t basic us,
      SourceFile.read ⟨"T.php"⟩
        "<?php class T \x7b static function f($x) \x7b return $x; \x7d \x7d" = .ok source ∧
      globalBase.findTemplate source = .ok t ∧ BasicTest.file globalBase t none = .ok basic ∧
      basic.classUses? = some us ∧ ¬ Resolves globalBase String.toLower basic us := by
  have hok : (do
      let source ← SourceFile.read ⟨"T.php"⟩
        "<?php class T \x7b static function f($x) \x7b return $x; \x7d \x7d"
      let t ← globalBase.findTemplate source
      let basic ← BasicTest.file globalBase t none
      let collection ← CollectionTest.file globalBase t none
      return (source, t, basic, collection)).toOption.isSome = true := by decide +kernel
  obtain ⟨_, hr⟩ := Declaration.exists_of_toOption_isSome hok
  obtain ⟨source, hread, hr⟩ := Declaration.exists_of_bind hr
  obtain ⟨t, ht, hr⟩ := Declaration.exists_of_bind hr
  obtain ⟨basic, hbasic, hr⟩ := Declaration.exists_of_bind hr
  obtain ⟨collection, hcollection, -⟩ := Declaration.exists_of_bind hr
  have hvalid : globalBase.NamesValid := by
    constructor <;> decide +kernel
  have hdistinct : globalBase.NamesDistinct String.toLower := by
    unfold Config.NamesDistinct
    decide +kernel
  obtain ⟨us, -, hus, -, -, hiff, -⟩ :=
    classNames_resolve_iff hread ht hvalid hdistinct hbasic hcollection
  refine ⟨source, t, basic, us, hread, ht, hbasic, hus, fun hresolves => ?_⟩
  have hglobal := hiff.1 hresolves
  revert hglobal
  decide +kernel

end CurryGen

import CurryGen.Artifact.CollectionTest
import CurryGen.Proofs.Tree.Source
import Mathlib

/-!
# Method names

The names of generated methods follow from the names of the template's functions. A template keeps
its functions apart by case, which method names do not, and the second test of a collection function
has a suffix that another function's name may end in. So the methods of a generated class have
different names just when the template gives no cause for either.

* `Api.methodNames_file`, `BasicTest.methodNames_file`, `CollectionTest.methodNames_perm`: the names
  of the generated methods.
* `Template.methodNames_nodup_iff`: when they are distinct.
-/

namespace CurryGen

open Code

/-- The names of the methods of a generated class, without regard to case. -/
def Code.ClassFile.methodNames (file : ClassFile) : List String :=
  file.content.methods.map (·.name.toLower)

/-- The functions of the template that a class makes: its static methods. -/
def ClassDecl.functions (c : ClassDecl) : List TemplateFunction :=
  (c.methods.filter (·.isStatic)).map TemplateFunction.mk

/-- The name of a function without regard to case. -/
def TemplateFunction.lowerName (f : TemplateFunction) : String := f.name.toLower

/-- Whether the function is tested by calls with plain values. -/
def BasicTest.isTested (f : TemplateFunction) : Bool := !f.returnsObject

/-- Whether the function is tested by calls with wrapped collections. -/
def CollectionTest.isTested (f : TemplateFunction) : Bool :=
  f.isCollectionFunction && !f.returnsObject && !f.isVariadic

/-! ## Names without case -/

theorem toLower_append (s t : String) : (s ++ t).toLower = s.toLower ++ t.toLower := by
  simp [String.toLower, ← String.toList_inj]

theorem toLower_test (s : String) : ("test" ++ s).toLower = "test" ++ s.toLower := by
  have htest : "test".toLower = "test" := by decide +kernel
  rw [toLower_append, htest]

/-- Capitals make no difference. -/
theorem TemplateFunction.toLower_capitalizedName (f : TemplateFunction) :
    f.capitalizedName.toLower = f.lowerName := by
  rw [← String.toList_inj]
  unfold capitalizedName lowerName String.toLower
  rw [String.toList_map, String.toList_map]
  cases f.name.toList with
  | nil => rfl
  | cons c cs => simp [Char.toLower_toUpper_eq_toLower]

/-! ## The methods of a class -/

/-- What is known of the result of every step is known of all results together. -/
theorem flatMap_of_mapM {α β γ ε : Type} {f : α → Except ε β} {g : β → List γ} {k : α → List γ}
    (hstep : ∀ a b, f a = .ok b → g b = k a) {l : List α} {r : List β} (h : l.mapM f = .ok r) :
    r.flatMap g = l.flatMap k := by
  induction l generalizing r with
  | nil =>
    cases h
    rfl
  | cons a l ih =>
    obtain ⟨b, bs, hb, hbs, rfl⟩ := Declaration.mapM_cons_eq_ok_iff.1 h
    rw [List.flatMap_cons, List.flatMap_cons, hstep a b hb, ih hbs]

theorem flatMap_ite {α β : Type} (p : α → Bool) (g : α → List β) (l : List α) :
    (l.flatMap fun a => if p a then g a else []) = (l.filter p).flatMap g := by
  induction l with
  | nil => rfl
  | cons a l ih =>
    rw [List.flatMap_cons, List.filter_cons, ih]
    split
    · rw [List.flatMap_cons]
    · rfl

/-- Each function has a method of its name. -/
theorem Api.methodNames_file {c : Config} {x : Examples} {imports : List String} {file : ClassFile}
    (h : Api.file c x imports = .ok file) :
    file.methodNames = x.template.functions.map (·.lowerName) := by
  obtain ⟨methods, hmethods, rfl⟩ := Declaration.exists_of_map (f := fun methods => _) h
  have hnames := flatMap_of_mapM (g := fun m : Method => [m.name.toLower])
    (k := fun f => [f.lowerName]) (fun f m hm => ?_) hmethods
  · rw [← List.map_eq_flatMap, ← List.map_eq_flatMap] at hnames
    exact hnames
  · obtain ⟨rows, -, rfl⟩ := Declaration.exists_of_map hm
    rfl

theorem BasicTest.toLower_name (c : Config) (providers : Option ClassDecl) (f : TemplateFunction)
    (shape : CallShape) :
    (BasicTest.methodWith c providers f shape).name.toLower = "test" ++ f.lowerName := by
  rw [← f.toLower_capitalizedName]
  exact toLower_test f.capitalizedName

/-- Each tested function has a method that is named after it. -/
theorem BasicTest.methodNames_file {c : Config} {t : Template} {providers : Option ClassDecl}
    {file : ClassFile} (h : BasicTest.file c t providers = .ok file) :
    file.methodNames =
      (t.functions.filter BasicTest.isTested).map fun f => "test" ++ f.lowerName := by
  obtain ⟨methods, hmethods, rfl⟩ := Declaration.exists_of_map (f := fun methods => _) h
  have hnames := flatMap_of_mapM (g := fun m : Option Method => m.toList.map (·.name.toLower))
    (k := fun f => if isTested f then ["test" ++ f.lowerName] else []) (fun f m hm => ?_) hmethods
  · rw [flatMap_ite, ← List.map_eq_flatMap, ← List.map_flatMap,
      ← List.filterMap_eq_flatMap_toList] at hnames
    exact hnames
  · unfold method? at hm
    unfold isTested
    split at hm
    · rename_i hobject
      cases hm
      rw [hobject]
      rfl
    · rename_i hobject
      obtain ⟨shape, -, rfl⟩ := Declaration.exists_of_map hm
      rw [if_pos (by simpa using hobject), ← toLower_name c providers f shape]
      rfl

theorem CollectionTest.toLower_name (c : Config) (providers : Option ClassDecl)
    (f : TemplateFunction) (shape : CallShape) (collection fixture suffix : String) :
    (CollectionTest.methodWith c providers f shape collection fixture suffix).name.toLower =
      "test" ++ f.lowerName ++ suffix.toLower := by
  rw [← f.toLower_capitalizedName]
  have hname := toLower_append ("test" ++ f.capitalizedName) suffix
  rw [toLower_test] at hname
  exact hname

/-- Each tested function has two methods, of which the second has a suffix. -/
theorem CollectionTest.methodNames_file {c : Config} {t : Template} {providers : Option ClassDecl}
    {file : ClassFile} (h : CollectionTest.file c t providers = .ok file) :
    file.methodNames = (t.functions.filter CollectionTest.isTested).flatMap fun f =>
      ["test" ++ f.lowerName, "test" ++ f.lowerName ++ "simple"] := by
  obtain ⟨tests, htests, rfl⟩ := Declaration.exists_of_map (f := fun tests => _) h
  have hnames := flatMap_of_mapM (g := fun ms : List Method => ms.map (·.name.toLower))
    (k := fun f => if isTested f then ["test" ++ f.lowerName, "test" ++ f.lowerName ++ "simple"]
      else []) (fun f ms hms => ?_) htests
  · rw [flatMap_ite, ← List.map_flatMap, List.flatMap_id'] at hnames
    exact hnames
  · unfold methods at hms
    unfold isTested TemplateFunction.isCollectionFunction
    split at hms
    · rename_i hnone
      cases hms
      rw [hnone]
      rfl
    · rename_i collection hsome
      rw [hsome]
      split at hms
      · rename_i huntested
        cases hms
        rw [if_neg (by simpa [or_iff_not_imp_left] using huntested)]
        rfl
      · rename_i htested
        obtain ⟨shape, -, rfl⟩ := Declaration.exists_of_map hms
        have hempty : "".toLower = "" := by decide +kernel
        have hsimple : "Simple".toLower = "simple" := by decide +kernel
        rw [if_pos (by simpa using htested), List.map_cons, List.map_singleton, toLower_name,
          toLower_name, hempty, hsimple, String.append_empty]

/-! ## Distinct names -/

/-- Two names for each element are distinct when the first ones are and none of them is a second. -/
theorem nodup_flatMap_pair_iff {α β : Type} {g : α → β} {s : β → β} (hs : Function.Injective s)
    (l : List α) :
    (l.flatMap fun a => [g a, s (g a)]).Nodup ↔
      (l.map g).Nodup ∧ ∀ a ∈ l, ∀ b ∈ l, g b ≠ s (g a) := by
  have hperm : (l.map g ++ (l.map g).map s).Perm (l.flatMap fun a => [g a, s (g a)]) := by
    rw [List.map_map, List.map_eq_flatMap, List.map_eq_flatMap]
    exact List.flatMap_append_perm l (fun a => [g a]) (fun a => [s (g a)])
  rw [← hperm.nodup_iff, List.nodup_append, List.nodup_map_iff hs]
  constructor
  · intro hleft
    refine ⟨hleft.1, fun a ha b hb => hleft.2.2 _ (List.mem_map_of_mem hb) _ ?_⟩
    exact List.mem_map_of_mem (List.mem_map_of_mem ha)
  · intro hright
    refine ⟨hright.1, hright.1, fun x hx y hy => ?_⟩
    obtain ⟨b, hb, rfl⟩ := List.mem_map.1 hx
    obtain ⟨z, hz, rfl⟩ := List.mem_map.1 hy
    obtain ⟨a, ha, rfl⟩ := List.mem_map.1 hz
    exact hright.2 a ha b hb

theorem nodup_map_test_iff (fs : List TemplateFunction) :
    (fs.map fun f => "test" ++ f.lowerName).Nodup ↔ (fs.map (·.lowerName)).Nodup := by
  have hinjective : Function.Injective ("test" ++ ·) := fun s t h => (String.append_right_inj _).1 h
  have hmap : (fs.map fun f => "test" ++ f.lowerName) = (fs.map (·.lowerName)).map ("test" ++ ·) :=
    List.map_map.symm
  rw [hmap, List.nodup_map_iff hinjective]

/-- **Distinct method names.** When a class makes a template, the names of the methods generated from
it are distinct, case aside, just when the class gives no cause for a clash. The names of the library
class are those of the functions, so no two functions may be kept apart by case alone; neither may
two of the functions that a test class tests. For the tests with collections, no tested function may
have the name of another one with `simple` after it either. -/
theorem Template.methodNames_nodup_iff {decl : ClassDecl} {combinators : Combinators} {t : Template}
    (h : Template.ofClass decl combinators = .ok t) (c : Config) (providers : Option ClassDecl) :
    (∀ (x : Examples) (imports : List String) (file : ClassFile), x.template = t →
      Api.file c x imports = .ok file →
      (file.methodNames.Nodup ↔ (decl.functions.map (·.lowerName)).Nodup)) ∧
    (∀ file : ClassFile, BasicTest.file c t providers = .ok file →
      (file.methodNames.Nodup ↔
        ((decl.functions.filter BasicTest.isTested).map (·.lowerName)).Nodup)) ∧
    ∀ file : ClassFile, CollectionTest.file c t providers = .ok file →
      (file.methodNames.Nodup ↔
        ((decl.functions.filter CollectionTest.isTested).map (·.lowerName)).Nodup ∧
        ∀ f ∈ decl.functions.filter CollectionTest.isTested,
          ∀ g ∈ decl.functions.filter CollectionTest.isTested,
            g.lowerName ≠ f.lowerName ++ "simple") := by
  have hfunctions : decl.functions = t.functions := (functions_ofClass h).symm
  rw [hfunctions]
  refine ⟨?_, ?_, ?_⟩
  · rintro x imports file rfl hfile
    rw [Api.methodNames_file hfile]
  · intro file hfile
    rw [BasicTest.methodNames_file hfile, nodup_map_test_iff]
  · intro file hfile
    have hinjective : Function.Injective (· ++ "simple") := fun s t h =>
      (String.append_left_inj _).1 h
    rw [CollectionTest.methodNames_file hfile,
      nodup_flatMap_pair_iff (g := fun f : TemplateFunction => "test" ++ f.lowerName) hinjective,
      nodup_map_test_iff]
    simp only [String.append_assoc, ne_eq, String.append_right_inj]

/-- The second test of `size` is named like the first test of `sizeSimple`, although the library
class has both functions. -/
theorem Template.methodNames_nodup_iff_suffix :
    let declared (name : String) : MethodDecl :=
      { modifiers := ["static"], name, params := [{ name := "list" }], body := some [] }
    let decl : ClassDecl := { name := "T", methods := [declared "size", declared "sizeSimple"] }
    ∃ t library tests, Template.ofClass decl {} = .ok t ∧
      Api.file {} ⟨t, { name := "E" }, none, "P"⟩ [] = .ok library ∧ library.methodNames.Nodup ∧
      CollectionTest.file {} t none = .ok tests ∧ ¬tests.methodNames.Nodup := by
  intro declared decl
  have ht : Template.ofClass decl {} = .ok ⟨decl.functions, {}, by decide +kernel⟩ := rfl
  obtain ⟨hlibrary, -, htests⟩ := methodNames_nodup_iff ht {} none
  refine ⟨_, _, _, ht, rfl, ?_, rfl, ?_⟩
  · rw [hlibrary ⟨_, { name := "E" }, none, "P"⟩ [] _ rfl rfl]
    decide +kernel
  · rw [htests _ rfl]
    decide +kernel

end CurryGen

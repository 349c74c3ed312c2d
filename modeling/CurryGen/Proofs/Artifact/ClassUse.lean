import CurryGen.Proofs.ClassName
import CurryGen.Proofs.Code.ClassUse
import CurryGen.Proofs.Template.Spelling

/-!
# The class names that generated tests use

The lines of generated tests are put together from calls and assertions, and each of these is code
that uses few class names. Nothing is known of parameters but that they are variables.

* `IsCallOf.spells`: a call, however it is split, uses the name of the class before `::`.
* `BasicTest.exists_classUses?`: the methods of basic tests use the library class alone.
* `CollectionTest.classUses?_methodWith`: those of collection tests also use a fixture and the
  interface.
* `BasicTest.exists_of_mem_file`, `CollectionTest.exists_of_mem_file`: where the methods of the two
  test classes come from.
-/

namespace CurryGen

open Code Scan

/-! ## Calls -/

variable {y : List Char} {cs : List ClassUse} {callee : String}

/-- Arguments and the parenthesis after them. -/
theorem Scan.Spells.arguments {args : List String} (hargs : ∀ arg ∈ args, IsArgument arg)
    (h : Spells y cs) : Spells ((", ".intercalate args).toList ++ (")".toList ++ y)) cs := by
  have hclose : Spells (")".toList ++ y) cs := h.symbol (by decide)
  induction args with
  | nil => exact hclose
  | cons arg args ih =>
    obtain ⟨⟨ts, hcovers, hts⟩, hrest⟩ := List.forall_mem_cons.1 hargs
    cases args with
    | nil => simpa using Spells.covered hcovers hts (d := ')') (by decide) hclose
    | cons next args =>
      have hcomma := Spells.symbol (s := ",") (by decide) (ih hrest).space
      have hall := Spells.covered hcovers hts (d := ',') (by decide) hcomma
      rw [String.toList_intercalate] at hall ⊢
      simpa [List.intercalate_cons_cons] using hall

/-- A call of a callee, or of what calling it gives. -/
inductive IsCallOf (callee : String) : String → Prop
  | once {args : List String} : (∀ arg ∈ args, IsArgument arg) →
      IsCallOf callee (BasicTest.call callee args)
  | again {first : String} {args : List String} : IsCallOf callee first →
      (∀ arg ∈ args, IsArgument arg) → IsCallOf callee (BasicTest.call first args)

/-- A call of a method uses the name of its class. -/
theorem IsCallOf.spells {className method s : String} (hclass : Stands ⟨.name, className⟩ [])
    (hmethod : Stands ⟨.name, method⟩ []) (hcall : IsCallOf (className ++ "::" ++ method) s)
    (h : Spells y cs) : Spells (s.toList ++ y) (⟨.scope, className⟩ :: cs) := by
  induction hcall generalizing y with
  | once hargs =>
    have hname := Spells.name hmethod (s := "(") (by decide) (by decide) (h.arguments hargs)
    simpa [BasicTest.call] using hname.scope hclass
  | again _ hargs ih =>
    have hall := ih (Spells.symbol (s := "(") (by decide) (h.arguments hargs))
    simpa [BasicTest.call] using hall

namespace BasicTest

theorem isCallOf_splitCall {args : List String} (hargs : ∀ arg ∈ args, IsArgument arg) (n : Nat) :
    IsCallOf callee (splitCall callee args n) := by
  have hfirst : ∀ arg ∈ args.take n, IsArgument arg := fun arg h =>
    hargs arg (List.mem_of_mem_take h)
  unfold splitCall
  split
  · exact .once hfirst
  · exact .again (.once hfirst) fun arg h => hargs arg (List.mem_of_mem_drop h)

theorem isCallOf_curryChain {args : List String} (hargs : ∀ arg ∈ args, IsArgument arg) :
    ∀ s ∈ curryChain callee args, IsCallOf callee s :=
  List.forall_mem_map.2 fun n _ => isCallOf_splitCall hargs n

variable {f : TemplateFunction} {shape : CallShape}

section

variable (hown : ∀ arg ∈ shape.ownArguments, IsArgument arg)
  (hinner : ∀ arg ∈ shape.innerArguments, IsArgument arg)
include hown hinner

theorem isCallOf_directCall : IsCallOf callee (directCall callee f shape) := by
  unfold directCall
  simp only
  split
  · exact .again (.once hown) hinner
  · exact .once hown

theorem isCallOf_chainCalls : ∀ s ∈ chainCalls callee f shape, IsCallOf callee s := by
  unfold chainCalls
  simp only
  split
  · exact List.forall_mem_map.2 fun s hs => .again (isCallOf_curryChain hown s hs) hinner
  · split
    · rename_i last hlast
      have hmem : last ∈ shape.ownArguments := by
        split at hlast
        · exact List.mem_of_getLast? hlast
        · cases hlast
      refine List.forall_mem_map.2 fun s hs => ?_
      refine .again (isCallOf_curryChain (fun arg h => hown arg (List.dropLast_subset _ h)) s hs) ?_
      exact List.forall_mem_singleton.2 (hown last hmem)
    · exact isCallOf_curryChain hown

end

end BasicTest

/-! ## Statements -/

theorem stands_arrow (y : List Char) : Stands (.symbol "->") y :=
  stands_alone ⟨'-', ['>'], rfl, by decide⟩ (by decide) y

/-- A method call on a variable, up to its first argument. -/
theorem Scan.Spells.methodCall {v method : String} (hv : Stands ⟨.variable, v⟩ [])
    (hmethod : Stands ⟨.name, method⟩ []) (h : Spells y cs) :
    Spells (v.toList ++ ("->".toList ++ (method.toList ++ ("(".toList ++ y)))) cs := by
  have hname := Spells.name hmethod (s := "(") (by decide) (by decide) h
  have harrow := Spells.cons_token (stands_arrow _) rfl nofun hname
  exact harrow.variable hv (d := '-') (by decide)

/-- An assignment to a variable, up to the value. -/
theorem Scan.Spells.assignment {v : String} (hv : Stands ⟨.variable, v⟩ []) (h : Spells y cs) :
    Spells (v.toList ++ ' ' :: ("=".toList ++ ' ' :: y)) cs := by
  have hequals : Stands (.symbol "=") [] := ⟨'=', [], rfl, by decide⟩
  have hsign := Spells.covered hequals.covers (by simp [Token.symbol]) (d := ' ') (by decide)
    h.space
  exact hsign.space.variable hv (d := ' ') (by decide)

theorem stands_this : Stands ⟨.variable, "$this"⟩ [] := ⟨'$', "this".toList, rfl, by decide⟩

theorem stands_expected : Stands ⟨.variable, "$expected"⟩ [] :=
  ⟨'$', "expected".toList, rfl, by decide⟩

theorem stands_actual : Stands ⟨.variable, "$actual"⟩ [] := ⟨'$', "actual".toList, rfl, by decide⟩

theorem stands_wrapped : Stands ⟨.variable, CollectionTest.wrapped⟩ [] :=
  ⟨'$', "wrappedCollection".toList, rfl, by decide⟩

/-- The end of a call that is a statement. -/
theorem spells_close : Spells [')', ';'] [] :=
  Spells.symbol (s := ")") (by decide) (Spells.symbol (s := ";") (by decide) .nil)

/-- An assertion of equality, up to the comma. -/
theorem Scan.Spells.assertEquals {v : String} (hv : Stands ⟨.variable, v⟩ []) (h : Spells y cs) :
    Spells ("$this->assertEquals(".toList ++ (v.toList ++ ',' :: ' ' :: y)) cs := by
  have hcomma : Spells (',' :: ' ' :: y) cs := Spells.symbol (s := ",") (by decide) h.space
  have hmethod : Stands ⟨.name, "assertEquals"⟩ [] := stands_identifier (by decide)
  have hall := (hcomma.variable hv (by decide)).methodCall stands_this hmethod
  simpa using hall

/-- An assertion that a value is the expected one. -/
theorem Scan.Spells.assertion {actual : String} (h : Spells (actual.toList ++ [')', ';']) cs) :
    Spells (BasicTest.assertion actual).toList cs := by
  unfold BasicTest.assertion
  simpa using h.assertEquals stands_expected

/-! ## Methods -/

namespace BasicTest

section

variable {c : Config} {f : TemplateFunction} {shape : CallShape}
variable (hclass : Stands ⟨.name, c.api.shownAs⟩ []) (hf : Stands ⟨.name, f.name⟩ [])
  (hown : ∀ arg ∈ shape.ownArguments, IsArgument arg)
  (hinner : ∀ arg ∈ shape.innerArguments, IsArgument arg)
include hclass hf hown hinner

/-- The body of a basic test uses the library class alone. -/
theorem exists_classUses? (providers : Option ClassDecl) :
    ∃ us, (methodWith c providers f shape).classUses? = some us ∧
      ∀ u ∈ us, u = ⟨.scope, c.api.shownAs⟩ := by
  have hassertion {actual : String} (h : IsCallOf (c.api.shownAs ++ "::" ++ f.name) actual) :
      Spells (assertion actual).toList [⟨.scope, c.api.shownAs⟩] :=
    (h.spells hclass hf spells_close).assertion
  have hline : ∀ line ∈ (methodWith c providers f shape).body,
      ∃ us, Spells line.toList us ∧ ∀ u ∈ us, u = ⟨.scope, c.api.shownAs⟩ := by
    simp only [methodWith]
    refine List.forall_mem_cons.2 ⟨⟨_, hassertion (isCallOf_directCall hown hinner), by simp⟩, ?_⟩
    split
    · refine List.forall_mem_cons.2 ⟨⟨[], .nil, by simp⟩, List.forall_mem_map.2 fun s hs => ?_⟩
      exact ⟨_, hassertion (isCallOf_chainCalls hown hinner s hs), by simp⟩
    · simp
  choose! g hg using hline
  have hlines := List.forall₂_map_right_iff.2 (List.forall₂_same.2 fun line h => (hg line h).1)
  refine ⟨_, Method.classUses?_eq hlines, fun u hu => ?_⟩
  obtain ⟨us, hus, hu⟩ := List.mem_flatten.1 hu
  obtain ⟨line, hline, rfl⟩ := List.mem_map.1 hus
  exact (hg line hline).2 u hu

end

end BasicTest

namespace CollectionTest

/-- The line that wraps the collection in a fixture. -/
theorem spells_wrapping {fixture v : String} (hfixture : Stands ⟨.name, fixture⟩ [])
    (hv : Stands ⟨.variable, v⟩ []) :
    Spells (wrapped ++ " = new " ++ fixture ++ "(" ++ v ++ ");").toList
      [⟨.construction, fixture⟩] := by
  have hnew := Spells.keyword (k := "new") (by decide) hfixture (s := "(") (by decide) (by decide)
    (spells_close.variable hv (by decide))
  simpa [Token.classUse?_new] using hnew.assignment stands_wrapped

/-- The line that asks whether the result is a collection. -/
theorem spells_test {interface : String} (hinterface : Stands ⟨.name, interface⟩ []) :
    Spells ("if ($actual instanceof " ++ interface ++ ") \x7b").toList [⟨.test, interface⟩] := by
  have hopen : Spells [' ', '\x7b'] [] := (Spells.symbol (s := "\x7b") (by decide) .nil).space
  have htest := Spells.keyword (k := "instanceof") (by decide) hinterface (s := ")") (by decide)
    (by decide) hopen
  have hif := (htest.space.variable stands_actual (by decide)).name_space
    (stands_identifier (s := "if") (by decide)) (s := "(") (by decide) (by decide)
  simpa [Token.classUse?_instanceof] using hif

/-- The line that turns a collection into its values. -/
theorem spells_toArray {method : String} (hmethod : Stands ⟨.name, method⟩ []) :
    Spells ("    $actual = $actual->" ++ method ++ "();").toList [] := by
  have hcall := (spells_close.methodCall stands_actual hmethod).assignment stands_actual
  simpa using hcall.space.space.space.space

/-- The line that asserts that the collection is as before. -/
theorem spells_unchanged {v method : String} (hv : Stands ⟨.variable, v⟩ [])
    (hmethod : Stands ⟨.name, method⟩ []) :
    Spells ("$this->assertEquals(" ++ v ++ ", " ++ wrapped ++ "->" ++ method ++ "());").toList
      [] := by
  have hclose : Spells [')', ')', ';'] [] := Spells.symbol (s := ")") (by decide) spells_close
  simpa using (hclose.methodCall stands_wrapped hmethod).assertEquals hv

section

variable {c : Config} {f : TemplateFunction} {shape : CallShape} {collection fixture : String}
variable (hclass : Stands ⟨.name, c.api.shownAs⟩ []) (hf : Stands ⟨.name, f.name⟩ [])
  (hown : ∀ arg ∈ shape.ownArguments, IsArgument arg)
  (hinner : ∀ arg ∈ shape.innerArguments, IsArgument arg)
include hclass hf hown hinner

theorem spells_result (v : String) :
    Spells ("$actual = " ++ wrappedCall (c.api.shownAs ++ "::" ++ f.name) v f shape ++ ";").toList
      [⟨.scope, c.api.shownAs⟩] := by
  have hargs : ∀ arg ∈ shape.ownArguments.map fun arg => if arg = v then wrapped else arg,
      IsArgument arg := by
    refine List.forall_mem_map.2 fun arg harg => ?_
    split
    · exact isArgument_variable stands_wrapped
    · exact hown arg harg
  have hcall : IsCallOf (c.api.shownAs ++ "::" ++ f.name)
      (wrappedCall (c.api.shownAs ++ "::" ++ f.name) v f shape) := by
    unfold wrappedCall
    simp only
    split
    · exact .again (.once hargs) hinner
    · exact .once hargs
  have hend : Spells [';'] [] := Spells.symbol (s := ";") (by decide) .nil
  simpa using (hcall.spells hclass hf hend).assignment stands_actual

/-- The body of a collection test uses the fixture, the library class and the interface. -/
theorem classUses?_methodWith (hcollection : Stands ⟨.variable, "$" ++ collection⟩ [])
    (hfixture : Stands ⟨.name, shortName fixture⟩ [])
    (hinterface : Stands ⟨.name, shortName c.tests.collectionInterface⟩ [])
    (htoArray : Stands ⟨.name, c.tests.toArrayMethod⟩ [])
    (hvalues : Stands ⟨.name, c.tests.valuesMethod⟩ []) (providers : Option ClassDecl)
    (suffix : String) :
    (methodWith c providers f shape collection fixture suffix).classUses? =
      some [⟨.construction, shortName fixture⟩, ⟨.scope, c.api.shownAs⟩,
        ⟨.test, shortName c.tests.collectionInterface⟩] := by
  have hclose : Spells "\x7d".toList [] := Spells.symbol (s := "\x7d") (by decide) .nil
  have hexpected : Spells "$this->assertEquals($expected, $actual);".toList [] := by
    simpa using (spells_close.variable stands_actual (by decide)).assertEquals stands_expected
  have hempty : Spells "".toList [] := .nil
  have hbody : List.Forall₂ (fun line us => Spells line.toList us)
      (methodWith c providers f shape collection fixture suffix).body
      [[⟨.construction, shortName fixture⟩], [⟨.scope, c.api.shownAs⟩],
        [⟨.test, shortName c.tests.collectionInterface⟩], [], [], [], [], []] :=
    .cons (spells_wrapping hfixture hcollection) <|
    .cons (spells_result hclass hf hown hinner ("$" ++ collection)) <|
    .cons (spells_test hinterface) <| .cons (spells_toArray htoArray) <| .cons hclose <|
    .cons hempty <| .cons hexpected <| .cons (spells_unchanged hcollection hvalues) .nil
  exact Method.classUses?_eq hbody

end

end CollectionTest

/-! ## Files -/

/-- Every result of the steps comes from one of them. -/
theorem exists_of_mem_mapM {α β ε : Type} {g : α → Except ε β} {l : List α} {r : List β}
    (h : l.mapM g = .ok r) {b : β} (hb : b ∈ r) : ∃ a ∈ l, g a = .ok b := by
  induction l generalizing r with
  | nil =>
    cases h
    cases hb
  | cons a l ih =>
    obtain ⟨b', bs, hb', hbs, rfl⟩ := Declaration.mapM_cons_eq_ok_iff.1 h
    rcases List.mem_cons.1 hb with rfl | hb
    · exact ⟨a, List.mem_cons_self, hb'⟩
    · obtain ⟨a', ha', hstep⟩ := ih hbs hb
      exact ⟨a', List.mem_cons_of_mem a ha', hstep⟩

section

variable {c : Config} {t : Template} {providers : Option ClassDecl} {file : ClassFile} {m : Method}

theorem BasicTest.exists_of_mem_file (h : BasicTest.file c t providers = .ok file)
    (hm : m ∈ file.content.methods) : ∃ f ∈ t.functions, ∃ shape, t.callShape f = .ok shape ∧
      m = BasicTest.methodWith c providers f shape := by
  obtain ⟨methods, hmethods, rfl⟩ := Declaration.exists_of_map (f := fun methods => _) h
  obtain ⟨m', hm', hsome⟩ := List.mem_filterMap.1 hm
  obtain rfl : m' = some m := hsome
  obtain ⟨f, hf, hmethod⟩ := exists_of_mem_mapM hmethods hm'
  exact ⟨f, hf, BasicTest.exists_of_method? hmethod⟩

/-- Collection tests come in pairs. -/
theorem CollectionTest.exists_of_mem_file (h : CollectionTest.file c t providers = .ok file)
    (hm : m ∈ file.content.methods) : ∃ f ∈ t.functions, ∃ shape collection,
      t.callShape f = .ok shape ∧ f.collectionArgument? = some collection ∧
      CollectionTest.methodWith c providers f shape collection c.tests.fullFixture "" ∈
        file.content.methods ∧
      CollectionTest.methodWith c providers f shape collection c.tests.simpleFixture "Simple" ∈
        file.content.methods ∧
      ∃ fixture ∈ [c.tests.fullFixture, c.tests.simpleFixture], ∃ suffix,
        m = CollectionTest.methodWith c providers f shape collection fixture suffix := by
  obtain ⟨tests, htests, rfl⟩ := Declaration.exists_of_map (f := fun tests => _) h
  obtain ⟨ms, hms, hmem⟩ := List.mem_flatten.1 hm
  obtain ⟨f, hf, hmethods⟩ := exists_of_mem_mapM htests hms
  rcases CollectionTest.exists_of_methods hmethods with rfl |
    ⟨collection, shape, hcollection, hshape, rfl⟩
  · cases hmem
  · refine ⟨f, hf, shape, collection, hshape, hcollection, ?_, ?_, ?_⟩
    · exact List.mem_flatten.2 ⟨_, hms, by simp⟩
    · exact List.mem_flatten.2 ⟨_, hms, by simp⟩
    · rcases List.mem_pair.1 hmem with rfl | rfl
      · exact ⟨_, by simp, _, rfl⟩
      · exact ⟨_, by simp, _, rfl⟩

end

end CurryGen

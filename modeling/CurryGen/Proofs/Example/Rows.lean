import CurryGen.Artifact.BasicTest
import Mathlib

/-!
# Example rows and basic tests

The rows that are shown for a function and the basic test of the function are built apart from the
same data. A row shows the direct call of the test with the values of the row in place of the
parameters.

* `BasicTest.bindings`, `BasicTest.passed`: which values a row binds the parameters of a test to, and
  what an argument passes on then.
* `CallShape.Taken`: how a call takes the values of a row.
* `Examples.dataRow_eq`: a row with the values of the data in it is the direct call.
* `Examples.basicRows_shows`: the rows shown are the first three, each of them such a call.
-/

namespace CurryGen

theorem Value.valuesFrom?_zipIdx (values : List Value) (n : Nat) :
    valuesFrom? n ((values.zipIdx n).map fun (v, i) => (.int i, v)) = some values := by
  induction values generalizing n with
  | nil => rfl
  | cons value values ih =>
    rw [List.zipIdx_cons, List.map_cons, valuesFrom?, if_pos rfl]
    have hrest : valuesFrom? ((n : Int) + 1) _ = some values := ih (n + 1)
    rw [hrest, Option.map_some]

theorem Value.asList?_list (values : List Value) : (list values).asList? = some values :=
  valuesFrom?_zipIdx values 0

namespace BasicTest

/-! ## Binding -/

/-- The variables that values are bound to by position. A variadic parameter is bound to the list of
all values that are left. -/
def bindings : List Param → List Value → Bindings
  | [], _ => []
  | p :: ps, values =>
    if p.variadic then [(p.name, .list values)]
    else match values with
      | [] => []
      | value :: values => (p.name, value) :: bindings ps values

/-- The texts of the values that an argument passes on: that of the variable, or those of the
elements of a list that is spread. -/
def passed (env : Bindings) (argument : String) : List String :=
  match argument.toList with
  | '$' :: name => ((env.lookup (String.ofList name)).map (·.text)).toList
  | '.' :: '.' :: '.' :: '$' :: name =>
    (((env.lookup (String.ofList name)).bind (·.asList?)).getD []).map (·.text)
  | _ => [argument]

/-- Whether parameters take `n` values by position: one each, and any number for a variadic one at
the end. -/
def Fits (ps : List Param) (n : Nat) : Prop :=
  n = ps.length ∨ ps.getLast?.any (·.variadic) = true ∧ ps.length ≤ n + 1

section
variable {env : Bindings} {name : String} {value : Value}

theorem passed_variable (h : env.lookup name = some value) :
    passed env ("$" ++ name) = [value.text] := by
  have htext : ("$" ++ name).toList = '$' :: name.toList := by simp
  rw [passed, htext]
  simp only [String.ofList_toList, h, Option.map_some, Option.toList_some]

theorem passed_spread (h : env.lookup name = some value) :
    passed env ("...$" ++ name) = (value.asList?.getD []).map (·.text) := by
  have htext : ("...$" ++ name).toList = '.' :: '.' :: '.' :: '$' :: name.toList := by simp
  rw [passed, htext]
  simp only [String.ofList_toList, h, Option.bind_some]

theorem lookup_of_mem (hnodup : (env.map (·.1)).Nodup) (h : (name, value) ∈ env) :
    env.lookup name = some value := by
  induction env with
  | nil => cases h
  | cons b env ih =>
    obtain ⟨hnew, hrest⟩ := List.nodup_cons.1 hnodup
    rcases List.mem_cons.1 h with rfl | hmem
    · exact List.lookup_cons_self
    · have hne : (name == b.1) = false := by
        rw [beq_eq_false_iff_ne]
        exact fun heq => hnew (List.mem_map.2 ⟨(name, value), hmem, heq⟩)
      rw [List.lookup_cons, hne]
      exact ih hrest hmem

end

theorem map_fst_bindings_sublist (ps : List Param) (values : List Value) :
    ((bindings ps values).map (·.1)).Sublist (ps.map (·.name)) := by
  induction ps generalizing values with
  | nil => exact List.Sublist.refl _
  | cons p ps ih =>
    unfold bindings
    split
    · exact (List.nil_sublist _).cons_cons _
    · cases values with
      | nil => exact List.nil_sublist _
      | cons value values => exact (ih values).cons_cons _

theorem bindings_append {ps : List Param} (hps : ∀ p ∈ ps, p.variadic = false) {values : List Value}
    (hlength : values.length = ps.length) (qs : List Param) (rest : List Value) :
    bindings (ps ++ qs) (values ++ rest) = bindings ps values ++ bindings qs rest := by
  induction ps generalizing values with
  | nil =>
    obtain rfl := List.eq_nil_of_length_eq_zero hlength
    rfl
  | cons p ps ih =>
    obtain ⟨hp, hps⟩ := List.forall_mem_cons.1 hps
    cases values with
    | nil => cases hlength
    | cons value values =>
      rw [List.cons_append, List.cons_append, bindings, bindings, hp, ih hps (Nat.succ.inj hlength)]
      rfl

/-- The variables hold what values bind the parameters to. -/
def Binds (env : Bindings) (ps : List Param) (values : List Value) : Prop :=
  ∀ b ∈ bindings ps values, env.lookup b.1 = some b.2

theorem Binds.of_nodup {ps : List Param} (h : (ps.map (·.name)).Nodup) (values : List Value) :
    Binds (bindings ps values) ps values := fun _ hb =>
  lookup_of_mem (h.sublist (map_fst_bindings_sublist ps values)) hb

theorem Binds.split {env : Bindings} {ps qs : List Param} {values rest : List Value}
    (h : Binds env (ps ++ qs) (values ++ rest)) (hps : ∀ p ∈ ps, p.variadic = false)
    (hlength : values.length = ps.length) : Binds env ps values ∧ Binds env qs rest := by
  unfold Binds at h
  rw [bindings_append hps hlength] at h
  exact List.forall_mem_append.1 h

theorem Fits.cons {p : Param} {ps : List Param} {n : Nat} (hp : p.variadic = false)
    (h : Fits (p :: ps) n) : ∃ m, n = m + 1 ∧ Fits ps m := by
  rcases h with rfl | ⟨hlast, hle⟩
  · exact ⟨ps.length, rfl, .inl rfl⟩
  · cases ps with
    | nil =>
      rw [List.getLast?_singleton, Option.any_some, hp] at hlast
      cases hlast
    | cons q ps =>
      rw [List.getLast?_cons_cons] at hlast
      simp only [List.length_cons] at hle
      exact ⟨n - 1, by omega, .inr ⟨hlast, by simp only [List.length_cons]; omega⟩⟩

theorem Fits.append {ps qs : List Param} {n : Nat} (hps : ∀ p ∈ ps, p.variadic = false)
    (h : Fits (ps ++ qs) n) : ∃ m, n = ps.length + m ∧ Fits qs m := by
  induction ps generalizing n with
  | nil => exact ⟨n, by simp, h⟩
  | cons p ps ih =>
    obtain ⟨hp, hps⟩ := List.forall_mem_cons.1 hps
    obtain ⟨m, rfl, hm⟩ := Fits.cons hp h
    obtain ⟨k, rfl, hk⟩ := ih hps hm
    exact ⟨k, by rw [List.length_cons]; omega, hk⟩

/-! ## Arguments -/

/-- Parameters that are passed on pass the values they are bound to. -/
theorem flatMap_passed {env : Bindings} {ps : List Param}
    (hlast : ∀ p ∈ ps.dropLast, p.variadic = false) {values : List Value}
    (hfits : Fits ps values.length) (h : Binds env ps values) :
    (ps.map (·.argument)).flatMap (passed env) = values.map (·.text) := by
  induction ps generalizing values with
  | nil =>
    obtain hlength | ⟨hnone, -⟩ := hfits
    · rw [List.eq_nil_of_length_eq_zero hlength]
      rfl
    · cases hnone
  | cons p ps ih =>
    rw [List.map_cons, List.flatMap_cons, Param.argument]
    cases hp : p.variadic with
    | true =>
      obtain rfl : ps = [] := by
        by_contra hne
        rw [List.dropLast_cons_of_ne_nil hne] at hlast
        rw [hlast p List.mem_cons_self] at hp
        cases hp
      unfold Binds bindings at h
      rw [if_pos hp, List.forall_mem_singleton] at h
      simp only [if_true, passed_spread h, Value.asList?_list, Option.getD_some, List.map_nil,
        List.flatMap_nil, List.append_nil]
    | false =>
      obtain ⟨m, hlength, hrest⟩ := hfits.cons hp
      obtain ⟨value, values, rfl⟩ := List.exists_cons_of_length_eq_add_one hlength
      obtain rfl : values.length = m := Nat.succ.inj hlength
      unfold Binds at h
      rw [bindings, hp] at h
      obtain ⟨hvalue, hvalues⟩ := List.forall_mem_cons.1 h
      have hlast' : ∀ q ∈ ps.dropLast, q.variadic = false := fun q hq => by
        cases ps with
        | nil => cases hq
        | cons _ _ => exact hlast q (List.mem_cons_of_mem _ hq)
      rw [ih hlast' hrest hvalues]
      simp only [Bool.false_eq_true, if_false, passed_variable hvalue, List.map_cons,
        List.singleton_append]

end BasicTest

open BasicTest

/-! ## Call shapes -/

namespace CallShape

/-- How a call takes the values of a row for its declared parameters. -/
inductive Taken (s : CallShape) : Prop
  /-- One value for each. -/
  | plain : s.variadicAsArray = false → (∀ p ∈ s.own, p.variadic = false) → Taken s
  /-- All of them, those that are left for the variadic parameter at the end. -/
  | tail {init : List Param} {last : Param} : s.variadicAsArray = false → s.inner = [] →
      s.own = init ++ [last] → (∀ p ∈ init, p.variadic = false) → last.variadic = true → Taken s
  /-- One value for each, the last of which is a list. -/
  | array {init : List Param} {last : Param} : s.variadicAsArray = true →
      s.own = init ++ [last] → (∀ p ∈ init, p.variadic = false) → last.variadic = false →
      last.type = some "array" → Taken s

section
variable (f : TemplateFunction) (inner : List Param)

theorem variadicAsArray_of : (of f inner).variadicAsArray =
    (f.isVariadic && !inner.isEmpty && (!inner.getLast?.any (·.variadic) || f.returnsCallable)) :=
  rfl

theorem own_of : (of f inner).own =
    if (of f inner).variadicAsArray then
      mapLast (fun p => { name := p.name, type := some "array" }) (f.params.map strip)
    else f.params.map strip :=
  rfl

theorem inner_of : (of f inner).inner =
    if f.returnsCallable then
      (inner.filter (!((of f inner).own.map (·.name)).contains ·.name)).map strip
    else [] :=
  rfl

end

theorem isVariadic_eq (f : TemplateFunction) :
    f.isVariadic = f.params.getLast?.any (·.variadic) :=
  rfl

/-- A variadic parameter that is not received as an array has no inner parameters after it. -/
theorem inner_eq_nil {f : TemplateFunction} {inner : List Param} (hvariadic : f.isVariadic = true)
    (h : (of f inner).variadicAsArray = false) : (of f inner).inner = [] := by
  rw [variadicAsArray_of, hvariadic] at h
  rw [inner_of]
  cases hcallable : f.returnsCallable with
  | false => rfl
  | true =>
    rw [hcallable, Bool.or_true, Bool.and_true, Bool.true_and, Bool.not_eq_false',
      List.isEmpty_iff] at h
    rw [h]
    rfl

theorem taken_of {f : TemplateFunction} (hparams : ∀ p ∈ f.params.dropLast, p.variadic = false)
    (inner : List Param) : Taken (of f inner) := by
  have hown := own_of f inner
  rcases List.eq_nil_or_concat f.params with hnil | ⟨init, last, hconcat⟩
  · have hvariadic : (of f inner).variadicAsArray = false := by
      rw [variadicAsArray_of, isVariadic_eq, hnil]
      rfl
    rw [hvariadic, hnil] at hown
    exact .plain hvariadic (by simp [hown])
  · rw [List.concat_eq_append] at hconcat
    rw [hconcat, List.dropLast_concat] at hparams
    have hinit : ∀ p ∈ init.map strip, p.variadic = false := List.forall_mem_map.2 hparams
    have hvariadic : f.isVariadic = last.variadic := by
      rw [isVariadic_eq, hconcat, List.getLast?_concat]
      rfl
    rw [hconcat, List.map_append, List.map_singleton] at hown
    cases harray : (of f inner).variadicAsArray with
    | true =>
      rw [harray, if_pos rfl, mapLast, List.dropLast_concat, List.getLast?_concat] at hown
      exact .array harray hown hinit rfl rfl
    | false =>
      rw [harray] at hown
      cases hlast : last.variadic with
      | true => exact .tail harray (inner_eq_nil (hvariadic.trans hlast) harray) hown hinit hlast
      | false =>
        refine .plain harray ?_
        rw [hown]
        exact List.forall_mem_append.2 ⟨hinit, List.forall_mem_singleton.2 hlast⟩

theorem mem_dropLast_of_filter {α : Type} {p : α → Bool} {l : List α} {a : α}
    (h : a ∈ (l.filter p).dropLast) : a ∈ l.dropLast := by
  rcases List.eq_nil_or_concat l with rfl | ⟨l, b, rfl⟩
  · cases h
  · rw [List.concat_eq_append] at h ⊢
    rw [List.dropLast_concat]
    rw [List.filter_append] at h
    cases hb : p b with
    | true =>
      rw [List.filter_cons_of_pos hb, List.filter_nil, List.dropLast_concat] at h
      exact (List.mem_filter.1 h).1
    | false =>
      rw [List.filter_cons_of_neg (by simp [hb]), List.filter_nil, List.append_nil] at h
      exact (List.mem_filter.1 (List.dropLast_subset _ h)).1

/-- Only the last of the inner parameters that are left is variadic. -/
theorem variadic_inner_of {f : TemplateFunction} {inner : List Param}
    (hinner : ∀ p ∈ inner.dropLast, p.variadic = false) :
    ∀ p ∈ (of f inner).inner.dropLast, p.variadic = false := by
  rw [inner_of]
  split
  · rw [← List.map_dropLast, List.forall_mem_map]
    exact fun p hp => hinner p (mem_dropLast_of_filter hp)
  · exact List.forall_mem_nil _

end CallShape

/-! ## Rows -/

namespace Examples

/-- The argument lists of the direct call of a function. -/
def groups (f : TemplateFunction) (own inner : List String) : List (List String) :=
  if f.returnsCallable then [own, inner] else [own]

theorem directCall_eq (callee : String) (f : TemplateFunction) (shape : CallShape) :
    directCall callee f shape =
      (groups f shape.ownArguments shape.innerArguments).foldl call callee := by
  unfold directCall groups
  split <;> rfl

/-- The values of a row that go to the declared parameters. -/
def taken (shape : CallShape) (args : List Value) : Nat :=
  if shape.own.getLast?.any (·.variadic) && !shape.variadicAsArray then args.length
  else shape.own.length

theorem dataRow_text (className : String) (f : TemplateFunction) (shape : CallShape)
    (expected : Value) (args : List Value) :
    dataRow className f shape expected args =
      (groups f (ownTexts shape (args.take (taken shape args)))
        ((args.drop (taken shape args)).map (·.text))).foldl call (className ++ "::" ++ f.name) ++
        "; // => " ++ expected.text := by
  unfold dataRow groups taken
  split <;> simp only [call, List.foldl_cons, List.foldl_nil, String.append_assoc,
    String.append_empty]

theorem ownTexts_of_not {shape : CallShape} (h : shape.variadicAsArray = false)
    (values : List Value) : ownTexts shape values = values.map (·.text) := by
  simp [ownTexts, h]

theorem ownTexts_array {shape : CallShape} (h : shape.variadicAsArray = true) {init : List Value}
    {last : Value} (hlength : (init ++ [last]).length = shape.own.length) {elements : List Value}
    (hlast : last.asList? = some elements) :
    ownTexts shape (init ++ [last]) = (init ++ elements).map (·.text) := by
  rw [ownTexts, if_pos ⟨h, hlength⟩, List.getLast?_concat, Option.bind_some, hlast]
  simp only [List.dropLast_concat]

theorem taken_of_not {shape : CallShape} (h : ∀ p ∈ shape.own, p.variadic = false)
    (args : List Value) : taken shape args = shape.own.length := by
  rw [taken]
  cases hlast : shape.own.getLast? with
  | none => rfl
  | some last =>
    rw [Option.any_some, h last (List.mem_of_getLast? hlast)]
    rfl

section
variable {shape : CallShape} {env : Bindings} {args : List Value}
  (hinner : ∀ p ∈ shape.inner.dropLast, p.variadic = false)
  (hfits : Fits shape.testParams args.length) (hbinds : Binds env shape.testParams args)
include hinner hfits hbinds

/-- Declared parameters without a variadic one at the end are bound to one value each, and what is
left goes to the inner parameters. -/
theorem exists_split (hown : ∀ p ∈ shape.own, p.variadic = false) :
    ∃ values rest, args = values ++ rest ∧ values.length = shape.own.length ∧
      Binds env shape.own values ∧
      rest.map (·.text) = shape.innerArguments.flatMap (passed env) := by
  obtain ⟨m, hlength, hrest⟩ := hfits.append hown
  have hvalues : (args.take shape.own.length).length = shape.own.length := by
    rw [List.length_take, hlength]
    omega
  rw [← List.take_append_drop shape.own.length args] at hbinds
  obtain ⟨hfirst, hlast⟩ := hbinds.split hown hvalues
  refine ⟨_, _, (List.take_append_drop _ _).symm, hvalues, hfirst, ?_⟩
  have hdrop : (args.drop shape.own.length).length = m := by
    rw [List.length_drop, hlength]
    omega
  exact (flatMap_passed hinner (hdrop ▸ hrest) hlast).symm

/-- The texts in a row are those that the arguments of the direct call pass on. -/
theorem texts_eq (htaken : shape.Taken) (hlists : ∀ p ∈ shape.testParams, p.type = some "array" →
      ∀ value, env.lookup p.name = some value → value.asList?.isSome = true) :
    ownTexts shape (args.take (taken shape args)) = shape.ownArguments.flatMap (passed env) ∧
      (args.drop (taken shape args)).map (·.text) = shape.innerArguments.flatMap (passed env) := by
  cases htaken with
  | plain harray hown =>
    obtain ⟨values, rest, rfl, hlength, hvalues, hrest⟩ := exists_split hinner hfits hbinds hown
    have harguments : shape.ownArguments = shape.own.map (·.argument) := by
      simp [CallShape.ownArguments, harray]
    rw [taken_of_not hown, ← hlength, List.take_left, List.drop_left, ownTexts_of_not harray, hrest,
      harguments]
    refine ⟨?_, rfl⟩
    exact (flatMap_passed (fun p hp => hown p (List.dropLast_subset _ hp)) (.inl hlength)
      hvalues).symm
  | @tail init last harray hnil hown hinit hlast =>
    have htaken : taken shape args = args.length := by
      rw [taken, hown, List.getLast?_concat, Option.any_some, hlast, harray]
      rfl
    have harguments : shape.ownArguments = shape.own.map (·.argument) := by
      simp [CallShape.ownArguments, harray]
    have hparams : shape.testParams = shape.own := by
      rw [CallShape.testParams, hnil, List.append_nil]
    have hinit' : ∀ p ∈ shape.own.dropLast, p.variadic = false := by
      rwa [hown, List.dropLast_concat]
    rw [hparams] at hfits hbinds
    rw [htaken, List.take_length, List.drop_length, ownTexts_of_not harray, harguments,
      CallShape.innerArguments, hnil]
    exact ⟨(flatMap_passed hinit' hfits hbinds).symm, rfl⟩
  | @array init last harray hown hinit hlast htype =>
    have hall : ∀ p ∈ shape.own, p.variadic = false := by
      rw [hown]
      exact List.forall_mem_append.2 ⟨hinit, List.forall_mem_singleton.2 hlast⟩
    have hmem : last ∈ shape.testParams := by simp [CallShape.testParams, hown]
    obtain ⟨values, rest, rfl, hlength, hvalues, hrest⟩ := exists_split hinner hfits hbinds hall
    obtain ⟨front, value, rfl⟩ : ∃ front value, values = front ++ [value] := by
      rcases List.eq_nil_or_concat values with rfl | ⟨front, value, hconcat⟩
      · simp [hown] at hlength
      · exact ⟨front, value, hconcat.trans List.concat_eq_append⟩
    have hfront : front.length = init.length := by simpa [hown] using hlength
    rw [hown] at hvalues
    obtain ⟨hfirst, hlook⟩ := hvalues.split hinit hfront
    have hvalue : env.lookup last.name = some value := by
      unfold Binds at hlook
      rw [bindings, hlast] at hlook
      exact hlook _ List.mem_cons_self
    obtain ⟨elements, helements⟩ := Option.isSome_iff_exists.1 (hlists last hmem htype value hvalue)
    have harguments : shape.ownArguments = init.map (·.argument) ++ ["...$" ++ last.name] := by
      simp [CallShape.ownArguments, harray, hown]
    rw [taken_of_not hall, ← hlength, List.take_left, List.drop_left,
      ownTexts_array harray hlength helements, hrest, harguments, List.flatMap_append,
      flatMap_passed (fun p hp => hinit p (List.dropLast_subset _ hp)) (.inl hfront) hfirst]
    refine ⟨?_, rfl⟩
    simp [passed_spread hvalue, helements]

end

theorem exists_param_of_mem {f : TemplateFunction} {shape : CallShape} {a : String}
    (h : a ∈ (groups f shape.ownArguments shape.innerArguments).flatten) :
    ∃ p ∈ shape.testParams, a = "$" ++ p.name ∨ a = "...$" ++ p.name := by
  have hargument (p : Param) : p.argument = "$" ++ p.name ∨ p.argument = "...$" ++ p.name := by
    rw [Param.argument]
    cases p.variadic
    · exact .inl rfl
    · exact .inr rfl
  have hown : ∀ a ∈ shape.ownArguments,
      ∃ p ∈ shape.own, a = "$" ++ p.name ∨ a = "...$" ++ p.name := by
    intro a ha
    rw [CallShape.ownArguments] at ha
    split at ha
    · rcases List.mem_append.1 ha with ha | ha
      · obtain ⟨p, hp, rfl⟩ := List.mem_map.1 ha
        exact ⟨p, List.dropLast_subset _ hp, hargument p⟩
      · obtain ⟨p, hp, rfl⟩ := Option.map_eq_some_iff.1 (Option.mem_toList.1 ha)
        exact ⟨p, List.mem_of_getLast? hp, .inr rfl⟩
    · obtain ⟨p, hp, rfl⟩ := List.mem_map.1 ha
      exact ⟨p, hp, hargument p⟩
  have hall : a ∈ shape.ownArguments ∨ a ∈ shape.innerArguments := by
    unfold groups at h
    split at h <;> simp at h <;> tauto
  rcases hall with ha | ha
  · obtain ⟨p, hp, htext⟩ := hown a ha
    exact ⟨p, List.mem_append_left _ hp, htext⟩
  · obtain ⟨p, hp, rfl⟩ := List.mem_map.1 ha
    exact ⟨p, List.mem_append_right _ hp, hargument p⟩

/-! ## The rows shown -/

/-- The expected value and the arguments of an entry of test data, if all have a literal form. -/
def row? (data : Value) : Option (Value × List Value) :=
  match data.asList? with
  | some (expected :: args) =>
    if expected.isPrintable && args.all (·.isPrintable) then some (expected, args) else none
  | _ => none

/-- Whether a row has a value for each parameter of a test, and a list for one that takes an array. -/
structure Suits (m : Code.Method) (expected : Value) (args : List Value) : Prop where
  fits : Fits m.params (args.length + 1)
  lists : ∀ p ∈ m.params, p.type = some "array" → ∀ value,
    (bindings m.params (expected :: args)).lookup p.name = some value → value.asList?.isSome = true

/-- Whether a line is the direct call of a test, its first assertion, with the values of a row in
place of the parameters, and the expected value. -/
def ShowsCall (callee : String) (m : Code.Method) (expected : Value) (args : List Value)
    (line : String) : Prop :=
  ∃ arguments : List (List String),
    (∀ a ∈ arguments.flatten, ∃ p ∈ m.params, a = "$" ++ p.name ∨ a = "...$" ++ p.name) ∧
    m.body.head? = some (assertion (arguments.foldl call callee)) ∧
    line = (arguments.map (·.flatMap (passed (bindings m.params (expected :: args))))).foldl call
      callee ++ "; // => " ++ expected.text

theorem dataRow?_eq (className : String) (f : TemplateFunction) (shape : CallShape) (data : Value) :
    dataRow? className f shape data =
      (row? data).map fun row => dataRow className f shape row.1 row.2 := by
  unfold dataRow? row?
  cases data.asList? with
  | none => rfl
  | some values =>
    cases values with
    | nil => rfl
    | cons expected args =>
      dsimp only
      split <;> rfl

theorem dataRow_showsCall {c : Config} {providers : Option ClassDecl} {f : TemplateFunction}
    {inner : List Param} (hparams : ∀ p ∈ f.params.dropLast, p.variadic = false)
    (hinner : ∀ p ∈ inner.dropLast, p.variadic = false) {m : Code.Method}
    (hm : methodWith c providers f (.of f inner) = m) (hnodup : (m.params.map (·.name)).Nodup)
    {expected : Value} {args : List Value} (h : Suits m expected args) :
    ShowsCall (c.api.shownAs ++ "::" ++ f.name) m expected args
      (dataRow c.api.shownAs f (.of f inner) expected args) := by
  have hmparams : m.params = { name := "expected" } :: (CallShape.of f inner).testParams := by
    rw [← hm]
    rfl
  obtain ⟨hfits, hlists⟩ := h
  have hbinds := Binds.of_nodup hnodup (expected :: args)
  unfold ShowsCall
  generalize bindings m.params (expected :: args) = env at hbinds hlists ⊢
  rw [hmparams] at hfits hbinds
  obtain ⟨n, hn, hfits⟩ := hfits.cons rfl
  obtain rfl := Nat.succ.inj hn
  have hexpected : ∀ p ∈ [({ name := "expected" } : Param)], p.variadic = false :=
    List.forall_mem_singleton.2 rfl
  have hall : Binds env ([{ name := "expected" }] ++ (CallShape.of f inner).testParams)
      ([expected] ++ args) := hbinds
  obtain ⟨-, hrest⟩ := hall.split hexpected rfl
  obtain ⟨hown, hinner⟩ := texts_eq (CallShape.variadic_inner_of hinner) hfits hrest
    (CallShape.taken_of hparams inner) fun p hp => hlists p (hmparams ▸ List.mem_cons_of_mem _ hp)
  refine ⟨groups f (CallShape.of f inner).ownArguments (CallShape.of f inner).innerArguments, ?_, ?_,
    ?_⟩
  · intro a ha
    obtain ⟨p, hp, htext⟩ := exists_param_of_mem ha
    exact ⟨p, hmparams ▸ List.mem_cons_of_mem _ hp, htext⟩
  · rw [← hm, ← directCall_eq]
    rfl
  · rw [dataRow_text, hown, hinner]
    unfold groups
    split <;> rfl

/-- **The rows shown are the first three of the test data**, and each that suits the basic test is
the direct call of the test on the values of the row. -/
theorem basicRows_shows {c : Config} {x : Examples} {f : TemplateFunction} {m : Code.Method}
    {entries : List (Key × Value)} (hclass : x.className = c.api.shownAs)
    (htest : method? c x.template x.providers f = .ok (some m)) (hdata : x.data? f = some entries)
    (hparams : ∀ p ∈ f.params.dropLast, p.variadic = false)
    (hinner : f.needsInnerParams = true → ∀ inner, x.template.innerParams f.name = .ok inner →
      ∀ p ∈ inner.dropLast, p.variadic = false)
    (hnodup : (m.params.map (·.name)).Nodup) :
    ∃ lines, x.basicRows f = .ok lines ∧
      List.Forall₂ (fun row line => Suits m row.1 row.2 →
          ShowsCall (c.api.shownAs ++ "::" ++ f.name) m row.1 row.2 line)
        ((entries.filterMap (row? ·.2)).take 3) lines := by
  obtain ⟨inner, hshape, hvariadic, hm⟩ : ∃ inner, x.template.callShape f = .ok (.of f inner) ∧
      (∀ p ∈ inner.dropLast, p.variadic = false) ∧
      methodWith c x.providers f (.of f inner) = m := by
    unfold method? at htest
    split at htest
    · cases htest
    · cases hshape : x.template.callShape f with
      | error e =>
        rw [hshape] at htest
        cases htest
      | ok shape =>
        rw [hshape] at htest
        cases htest
        unfold Template.callShape at hshape
        split at hshape
        · rename_i hneeds
          cases hwalk : x.template.innerParams f.name with
          | error e =>
            rw [hwalk] at hshape
            cases hshape
          | ok inner =>
            rw [hwalk] at hshape
            cases hshape
            exact ⟨inner, rfl, hinner hneeds inner hwalk, rfl⟩
        · cases hshape
          exact ⟨[], rfl, by simp, rfl⟩
  have hrows : (entries.filterMap fun e => dataRow? x.className f (.of f inner) e.2) =
      (entries.filterMap (row? ·.2)).map
        fun row => dataRow x.className f (.of f inner) row.1 row.2 := by
    rw [List.map_filterMap]
    exact congrArg (List.filterMap · entries) (funext fun e => dataRow?_eq ..)
  have hlines : x.basicRows f = .ok (((entries.filterMap (row? ·.2)).take 3).map
      fun row => dataRow x.className f (.of f inner) row.1 row.2) := by
    rw [basicRows, hdata, hshape, List.map_take, ← hrows]
    rfl
  refine ⟨_, hlines, ?_⟩
  rw [hclass, List.forall₂_map_right_iff, List.forall₂_same]
  exact fun row _ h => dataRow_showsCall hparams hvariadic hm hnodup h

/-- A function that applies another, which takes two arguments. -/
def applying : TemplateFunction where
  definition :=
    { name := "apply"
      params := [{ name := "f" }, { name := "args", variadic := true }]
      body := some [.mk (.ret (some (.closure ⟨false, [{ name := "a" }, { name := "b" }], [], none⟩
        (.block [])))) [] []] }

/-- Its test data are `[[3, 'add', [1, 2]], 7]`. -/
def applyingExamples : Examples where
  template := ⟨[applying], {}, by simp⟩
  examples := { name := "ExamplesTest" }
  providers := some
    { name := "Data"
      methods := [{
        name := "getApplyData"
        body := some [.mk (.ret (some (.array [
          .value (.array [.value (.literal (.int 3) "3"), .value (.literal (.string "add") "'add'"),
            .value (.array [.value (.literal (.int 1) "1"), .value (.literal (.int 2) "2")])]),
          .value (.literal (.int 7) "7")]))) [] []] }] }
  className := "P"

theorem basicRows_shows_array : ∃ m entries args,
    method? {} applyingExamples.template applyingExamples.providers applying = .ok (some m) ∧
    (m.params.map (·.name)).Nodup ∧ applyingExamples.data? applying = some entries ∧
    (entries.filterMap (row? ·.2)).take 3 = [(.int 3, args)] ∧ Suits m (.int 3) args ∧
    applyingExamples.basicRows applying = .ok ["P::apply('add', 1, 2); // => 3"] ∧
    ShowsCall "P::apply" m (.int 3) args "P::apply('add', 1, 2); // => 3" := by
  have hinner : applyingExamples.template.innerParams applying.name =
      .ok [{ name := "a" }, { name := "b" }] := by
    cbv
  have hneeds : applying.needsInnerParams = true ∧ applying.returnsObject = false := by
    constructor <;> cbv
  have hshape : applyingExamples.template.callShape applying =
      .ok (.of applying [{ name := "a" }, { name := "b" }]) := by
    rw [Template.callShape, if_pos hneeds.1, hinner]
    rfl
  have htest : method? {} applyingExamples.template applyingExamples.providers applying =
      .ok (some (methodWith {} applyingExamples.providers applying
        (.of applying [{ name := "a" }, { name := "b" }]))) := by
    rw [method?, hneeds.2, hshape]
    rfl
  have hnodup : ((methodWith {} applyingExamples.providers applying
      (.of applying [{ name := "a" }, { name := "b" }])).params.map (·.name)).Nodup := by
    decide +kernel
  have hdata : applyingExamples.data? applying = some [
      (.int 0, .array [(.int 0, .int 3), (.int 1, .string "add"),
        (.int 2, .array [(.int 0, .int 1), (.int 1, .int 2)])]),
      (.int 1, .int 7)] := by
    cbv
  have hrows : applyingExamples.basicRows applying = .ok ["P::apply('add', 1, 2); // => 3"] := by
    rw [basicRows, hdata, hshape]
    cbv
  have hvariadic : ∀ inner, applyingExamples.template.innerParams applying.name = .ok inner →
      ∀ p ∈ inner.dropLast, p.variadic = false := by
    intro inner h
    rw [hinner] at h
    cases h
    decide
  have hsuits : Suits (methodWith {} applyingExamples.providers applying
      (.of applying [{ name := "a" }, { name := "b" }])) (.int 3)
      [.string "add", .array [(.int 0, .int 1), (.int 1, .int 2)]] := by
    refine ⟨.inl rfl, ?_⟩
    have hparams : TestClass.testParams (.of applying [{ name := "a" }, { name := "b" }]) =
        [{ name := "expected" }, { name := "f" }, { name := "args", type := some "array" }] := by
      decide +kernel
    simp only [methodWith, hparams, List.forall_mem_cons]
    refine ⟨fun h => absurd h.symm (Option.some_ne_none _),
      fun h => absurd h.symm (Option.some_ne_none _), ?_, List.forall_mem_nil _⟩
    rintro - value hvalue
    cases hvalue
    rfl
  obtain ⟨lines, hlines, hshows⟩ := basicRows_shows rfl htest hdata (by decide +kernel)
    (fun _ => hvariadic) hnodup
  rw [hrows] at hlines
  obtain rfl := Except.ok.inj hlines
  exact ⟨_, _, _, htest, hnodup, hdata, rfl, hsuits, hrows, (List.forall₂_cons.1 hshows).1 hsuits⟩

end Examples

end CurryGen

import CurryGen.Proofs.Value.RoundTrip

/-!
# The law of array literals

An array literal is a row of writes, each under a key of its own or appended. The law of these writes
looks back at all keys that have been written; the array under construction only keeps the key of the
next append.

* `ArrayItem.writes`: what an item writes.
* `ArrayWrite.result`: the array that writes make, by the keys written before each.
* `ArrayBuilder.Follows.build_foldl_add`: the array under construction follows the law, by induction
  on the writes; `ArrayBuilder.Follows` is the invariant.
* `Value.WellKeyed`: in all arrays of a value the keys are distinct, and no string is an integer's.
* `Expr.eval_array_law`: the law of evaluation, and that no evaluator gets to know another value.
-/

namespace CurryGen

/-- One write of an array literal. -/
structure ArrayWrite where
  /-- The key, or `none` for an append. -/
  key : Option Key
  value : Value

/-- The integer that a key is. -/
def Key.int? : Key → Option Int
  | .int n => some n
  | .string _ => none

namespace ArrayWrite

/-- How an entry of a spread array is written: a string key is kept, and under an integer key the
value is appended. -/
def ofEntry : Key × Value → ArrayWrite
  | (.string s, value) => ⟨some (.string s), value⟩
  | (.int _, value) => ⟨none, value⟩

/-- The key of an append after these keys have been written: one more than the largest integer, and
zero at least. -/
def nextIndex (written : List Key) : Int :=
  match (written.filterMap Key.int?).max? with
  | some largest => max 0 (1 + largest)
  | none => 0

/-- There is no such key once the greatest integer of all has been written. -/
def nextIndex? (written : List Key) : Option Int :=
  if .int Number.maxInt ∈ written then none else some (nextIndex written)

/-- The entries that are written in order after the keys `written`, if no append lacks a key. -/
def resolve (written : List Key) : List ArrayWrite → Option (List (Key × Value))
  | [] => some []
  | w :: ws =>
    (w.key.or ((nextIndex? written).map .int)).bind fun key =>
      (resolve (key :: written) ws).map ((key, w.value) :: ·)

/-- The entries after one more is written: a key that is present keeps its place, and a new one goes
to the end. -/
def place (entries : List (Key × Value)) (e : Key × Value) : List (Key × Value) :=
  if e.1 ∈ entries.map (·.1) then entries.map fun old => if old.1 = e.1 then e else old
  else entries ++ [e]

/-- The value that writes make. -/
def result (ws : List ArrayWrite) : Value :=
  match resolve [] ws with
  | some entries => .array (entries.foldl place [])
  | none => .foreign "array"

end ArrayWrite

/-- What an item of an array literal writes. -/
def ArrayItem.writes (env : Bindings) : ArrayItem → List ArrayWrite
  | .value e => [⟨none, e.eval env⟩]
  | .entry k e =>
    match (k.eval env).key? with
    | some key => [⟨some key, e.eval env⟩]
    | none => [⟨none, .foreign (k.eval env).typeName⟩]
  | .spread e =>
    match e.eval env with
    | .array entries => entries.map .ofEntry
    | other => [⟨none, .foreign other.typeName⟩]

/-! ## Keys of appends -/

namespace ArrayWrite

variable {written : List Key} {entries : List (Key × Value)} {ws : List ArrayWrite}

theorem nextIndex_cons_int (n : Int) :
    nextIndex (.int n :: written) = max (nextIndex written) (n + 1) := by
  have hints : (Key.int n :: written).filterMap Key.int? = n :: written.filterMap Key.int? := rfl
  unfold nextIndex
  rw [hints, List.max?_cons]
  cases (written.filterMap Key.int?).max? with
  | none =>
    simp only [Option.elim_none]
    omega
  | some largest =>
    simp only [Option.elim_some]
    omega

theorem nextIndex?_cons (key : Key) :
    nextIndex? (key :: written) = ArrayBuilder.nextAfter (nextIndex? written) key := by
  have hmem (h : key ≠ .int Number.maxInt) :
      Key.int Number.maxInt ∈ key :: written ↔ .int Number.maxInt ∈ written := by
    rw [List.mem_cons, or_iff_right (Ne.symm h)]
  cases key with
  | string s =>
    simp only [nextIndex?, hmem (fun h => Key.noConfusion h)]
    rfl
  | int n =>
    rw [ArrayBuilder.nextAfter]
    split
    · rename_i hn
      rw [nextIndex?, if_pos (hn ▸ List.mem_cons_self)]
    · rename_i hn
      simp only [nextIndex?, hmem (fun h => hn (Key.int.inj h)), nextIndex_cons_int]
      split <;> rfl

/-! ## Entries -/

theorem place_cons_of_ne {e entry : Key × Value} (h : entry.1 ≠ e.1) :
    place (entry :: entries) e = entry :: place entries e := by
  have hmem : e.1 ∈ (entry :: entries).map (·.1) ↔ e.1 ∈ entries.map (·.1) := by
    rw [List.map_cons, List.mem_cons, or_iff_right (Ne.symm h)]
  unfold place
  simp only [hmem]
  split
  · rw [List.map_cons, if_neg h]
  · rfl

theorem assign_eq_place {key : Key} {value : Value} (h : (entries.map (·.1)).Nodup) :
    ArrayBuilder.assign key value entries = place entries (key, value) := by
  induction entries with
  | nil => rfl
  | cons entry entries ih =>
    obtain ⟨hnotMem, hnodup⟩ := List.nodup_cons.1 h
    rw [ArrayBuilder.assign]
    split
    · rename_i hkey
      -- no other entry has the key
      have hrest : entries.map (fun old => if old.1 = key then (key, value) else old) = entries := by
        refine (List.map_congr_left fun old hold => if_neg ?_).trans (List.map_id' entries)
        exact fun hsame => hnotMem (List.mem_map.2 ⟨old, hold, hsame.trans hkey.symm⟩)
      rw [place, if_pos (by simp [hkey]), List.map_cons, if_pos hkey, hrest]
    · rename_i hkey
      rw [place_cons_of_ne hkey, ih hnodup]

theorem map_fst_place (e : Key × Value) :
    (place entries e).map (·.1) =
      if e.1 ∈ entries.map (·.1) then entries.map (·.1) else entries.map (·.1) ++ [e.1] := by
  unfold place
  split
  · rw [List.map_map]
    refine List.map_congr_left fun old _ => ?_
    simp only [Function.comp_apply]
    split
    · rename_i hkey
      exact hkey.symm
    · rfl
  · rw [List.map_append, List.map_singleton]

theorem nodup_place (h : (entries.map (·.1)).Nodup) (e : Key × Value) :
    ((place entries e).map (·.1)).Nodup := by
  rw [map_fst_place]
  split
  · exact h
  · rename_i hnotMem
    rw [← List.concat_eq_append, List.nodup_concat]
    exact ⟨hnotMem, h⟩

theorem mem_of_mem_place {e entry : Key × Value} (h : entry ∈ place entries e) :
    entry ∈ entries ∨ entry = e := by
  unfold place at h
  split at h
  · obtain ⟨old, hold, rfl⟩ := List.mem_map.1 h
    split
    · exact .inr rfl
    · exact .inl hold
  · rcases List.mem_append.1 h with h | h
    · exact .inl h
    · exact .inr (List.mem_singleton.1 h)

theorem nodup_foldl_place {es : List (Key × Value)} (h : (entries.map (·.1)).Nodup) :
    ((es.foldl place entries).map (·.1)).Nodup := by
  induction es generalizing entries with
  | nil => exact h
  | cons e es ih => exact ih (nodup_place h e)

theorem mem_of_mem_foldl_place {es : List (Key × Value)} {entry : Key × Value}
    (h : entry ∈ es.foldl place entries) : entry ∈ entries ∨ entry ∈ es := by
  induction es generalizing entries with
  | nil => exact .inl h
  | cons e es ih =>
    rcases ih h with h | h
    · refine (mem_of_mem_place h).imp_right fun heq => ?_
      rw [heq]
      exact List.mem_cons_self
    · exact .inr (List.mem_cons_of_mem e h)

end ArrayWrite

/-! ## The array under construction -/

namespace ArrayBuilder

open ArrayWrite

variable {b : ArrayBuilder} {written : List Key}

/-- Carries out a write. -/
def add (b : ArrayBuilder) (w : ArrayWrite) : ArrayBuilder :=
  match w.key with
  | some key => b.write key w.value
  | none => b.append w.value

/-- The array has distinct keys, nothing was appended after the greatest integer, and the key of the
next append is that after the keys `written`. -/
structure Follows (written : List Key) (b : ArrayBuilder) : Prop where
  next : b.next = nextIndex? written
  nodup : (b.entries.map (·.1)).Nodup
  overflowed : b.overflowed = false

theorem follows_nil : Follows [] {} := ⟨rfl, List.nodup_nil, rfl⟩

theorem Follows.write (h : b.Follows written) (key : Key) (value : Value) :
    (b.write key value).Follows (key :: written) where
  next := by rw [nextIndex?_cons, ← h.next]; rfl
  nodup := by
    rw [ArrayBuilder.write, assign_eq_place h.nodup]
    exact nodup_place h.nodup _
  overflowed := h.overflowed

/-- A write goes under its key, or under that of the next append. -/
theorem Follows.add_eq (h : b.Follows written) (w : ArrayWrite) :
    b.add w = match w.key.or ((nextIndex? written).map .int) with
      | some key => b.write key w.value
      | none => { b with overflowed := true } := by
  unfold ArrayBuilder.add
  cases hkey : w.key with
  | some key => rfl
  | none =>
    simp only [Option.none_or]
    rw [append, h.next]
    cases nextIndex? written <;> rfl

theorem overflowed_append (h : b.overflowed = true) (value : Value) :
    (b.append value).overflowed = true := by
  unfold append
  split
  · exact h
  · rfl

theorem overflowed_foldl_add (h : b.overflowed = true) (ws : List ArrayWrite) :
    (ws.foldl add b).overflowed = true := by
  induction ws generalizing b with
  | nil => exact h
  | cons w ws ih =>
    refine ih ?_
    unfold add
    split
    · exact h
    · exact overflowed_append h w.value

/-- The array under construction follows the law. -/
theorem Follows.build_foldl_add (h : b.Follows written) (ws : List ArrayWrite) :
    (ws.foldl add b).build = match resolve written ws with
      | some entries => .array (entries.foldl place b.entries)
      | none => .foreign "array" := by
  induction ws generalizing b written with
  | nil =>
    rw [List.foldl_nil, build, h.overflowed]
    rfl
  | cons w ws ih =>
    rw [List.foldl_cons, h.add_eq, resolve]
    cases w.key.or ((nextIndex? written).map .int) with
    | none =>
      rw [build, overflowed_foldl_add rfl]
      rfl
    | some key =>
      simp only [Option.bind_some]
      rw [ih (h.write key w.value)]
      cases resolve (key :: written) ws with
      | none => rfl
      | some entries =>
        simp only [Option.map_some, List.foldl_cons]
        rw [ArrayBuilder.write, assign_eq_place h.nodup]

end ArrayBuilder

/-! ## Items -/

theorem ArrayItem.addTo_eq_foldl (env : Bindings) (b : ArrayBuilder) (item : ArrayItem) :
    item.addTo env b = (item.writes env).foldl ArrayBuilder.add b := by
  cases item with
  | value e => rw [ArrayItem.addTo]; rfl
  | entry k e =>
    rw [ArrayItem.addTo, ArrayItem.writes]
    cases (k.eval env).key? <;> rfl
  | spread e =>
    rw [ArrayItem.addTo, ArrayItem.writes]
    cases e.eval env with
    | array entries =>
      simp only [List.foldl_map, ArrayBuilder.spread]
      refine congrArg (List.foldl · b entries) (funext₂ fun b entry => ?_)
      obtain ⟨key, value⟩ := entry
      cases key <;> rfl
    | _ => rfl

theorem evalItems_eq_foldl (env : Bindings) (b : ArrayBuilder) (items : List ArrayItem) :
    evalItems env b items = (items.flatMap (·.writes env)).foldl ArrayBuilder.add b := by
  induction items generalizing b with
  | nil => rw [evalItems]; rfl
  | cons item items ih =>
    rw [evalItems, ih, ArrayItem.addTo_eq_foldl, List.flatMap_cons, List.foldl_append]

/-- An array literal is evaluated to what its items write. -/
theorem Expr.eval_array (env : Bindings) (items : List ArrayItem) :
    (Expr.array items).eval env = ArrayWrite.result (items.flatMap (·.writes env)) := by
  rw [Expr.eval, evalItems_eq_foldl, ArrayBuilder.follows_nil.build_foldl_add]
  rfl

/-! ## Overflow -/

namespace ArrayWrite

variable {written : List Key}

theorem nextIndex?_eq_none_iff : nextIndex? written = none ↔ .int Number.maxInt ∈ written := by
  unfold nextIndex?
  split <;> simp_all

theorem resolve_cons_eq_some_iff {w : ArrayWrite} {ws : List ArrayWrite}
    {entries : List (Key × Value)} : resolve written (w :: ws) = some entries ↔
      ∃ key rest, w.key.or ((nextIndex? written).map .int) = some key ∧
        resolve (key :: written) ws = some rest ∧ entries = (key, w.value) :: rest := by
  rw [resolve, Option.bind_eq_some_iff]
  simp only [Option.map_eq_some_iff]
  constructor
  · rintro ⟨key, hkey, rest, hrest, rfl⟩
    exact ⟨key, rest, hkey, hrest, rfl⟩
  · rintro ⟨key, rest, hkey, hrest, rfl⟩
    exact ⟨key, hkey, rest, hrest, rfl⟩

/-- Writes make no array exactly when one of them appends after the greatest integer. -/
theorem resolve_eq_none_iff {ws : List ArrayWrite} : resolve written ws = none ↔
    ∃ before value after entries, ws = before ++ ⟨none, value⟩ :: after ∧
      resolve written before = some entries ∧
      (.int Number.maxInt ∈ entries.map (·.1) ∨ .int Number.maxInt ∈ written) := by
  induction ws generalizing written with
  | nil => simp [resolve]
  | cons w ws ih =>
    cases hkey : w.key.or ((nextIndex? written).map .int) with
    | none =>
      obtain ⟨key, value⟩ := w
      obtain ⟨rfl, hnext⟩ := Option.or_eq_none_iff.1 hkey
      have hmax := nextIndex?_eq_none_iff.1 (Option.map_eq_none_iff.1 hnext)
      refine iff_of_true ?_ ⟨[], value, ws, [], rfl, rfl, .inr hmax⟩
      rw [resolve, hkey]
      rfl
    | some key =>
      rw [resolve, hkey, Option.bind_some, Option.map_eq_none_iff, ih]
      constructor
      · rintro ⟨before, value, after, entries, rfl, hbefore, hmax⟩
        refine ⟨w :: before, value, after, (key, w.value) :: entries, rfl,
          resolve_cons_eq_some_iff.2 ⟨key, entries, hkey, hbefore, rfl⟩, ?_⟩
        rw [List.mem_cons] at hmax
        rw [List.map_cons, List.mem_cons]
        tauto
      · rintro ⟨before, value, after, entries, hws, hbefore, hmax⟩
        cases before with
        | nil =>
          -- an append right away has a key, so the greatest integer has not been written
          cases hws
          cases hbefore
          rw [Option.none_or] at hkey
          obtain ⟨n, hn, -⟩ := Option.map_eq_some_iff.1 hkey
          rw [nextIndex?_eq_none_iff.2 (hmax.resolve_left (by simp))] at hn
          cases hn
        | cons w' before =>
          obtain ⟨rfl, rfl⟩ := List.cons.inj hws
          obtain ⟨key', rest, hkey', hrest, rfl⟩ := resolve_cons_eq_some_iff.1 hbefore
          obtain rfl := Option.some.inj (hkey.symm.trans hkey')
          refine ⟨before, value, after, rest, rfl, hrest, ?_⟩
          rw [List.map_cons, List.mem_cons] at hmax
          rw [List.mem_cons]
          tauto

end ArrayWrite

/-! ## Keys -/

/-- A key that an array can have: no string is the text of a 64-bit integer. -/
def Key.IsNormal : Key → Prop
  | .int _ => True
  | .string s => ∀ n : Int, Number.minInt ≤ n → n ≤ Number.maxInt → s ≠ toString n

/-- In every array inside the value the keys are distinct and normal. -/
inductive Value.WellKeyed : Value → Prop
  | null : WellKeyed .null
  | bool (b : Bool) : WellKeyed (.bool b)
  | int (n : Int) : WellKeyed (.int n)
  | float (x : Number.Double) : WellKeyed (.float x)
  | string (s : String) : WellKeyed (.string s)
  | array {entries : List (Key × Value)} : (entries.map (·.1)).Nodup →
      (∀ e ∈ entries, e.1.IsNormal) → (∀ e ∈ entries, WellKeyed e.2) → WellKeyed (.array entries)
  | foreign (type : String) : WellKeyed (.foreign type)

/-- A string that is an integer's text is that integer as a key. -/
theorem Key.isNormal_of_key? {v : Value} {key : Key} (h : v.key? = some key) : key.IsNormal := by
  cases v with
  | null =>
    cases h
    intro n hmin hmax hempty
    have hnone : Number.ofCanonical? "" = none := by decide +kernel
    rw [Number.ofCanonical?_eq_some_iff.2 ⟨hmin, hmax, hempty⟩] at hnone
    cases hnone
  | bool b => cases h; trivial
  | int n => cases h; trivial
  | float x => cases h; trivial
  | string s =>
    rw [Value.key?] at h
    split at h
    · cases h
      trivial
    · rename_i hnone
      cases h
      exact Key.isLiteral_string_iff.2 hnone
  | array entries => cases h
  | foreign type => cases h

/-- The key and the value of a write are such as an array can have. -/
def ArrayWrite.WellKeyed (w : ArrayWrite) : Prop :=
  (∀ key ∈ w.key, key.IsNormal) ∧ w.value.WellKeyed

namespace ArrayWrite

theorem wellKeyed_append {value : Value} (h : value.WellKeyed) : WellKeyed ⟨none, value⟩ :=
  ⟨fun _ hkey => absurd hkey (Option.not_mem_none _), h⟩

theorem wellKeyed_put {key : Key} {value : Value} (hkey : key.IsNormal) (h : value.WellKeyed) :
    WellKeyed ⟨some key, value⟩ :=
  ⟨fun _ hmem => Option.mem_some_iff.1 hmem ▸ hkey, h⟩

theorem wellKeyed_ofEntry {e : Key × Value} (hkey : e.1.IsNormal) (hvalue : e.2.WellKeyed) :
    (ofEntry e).WellKeyed := by
  obtain ⟨key, value⟩ := e
  cases key with
  | int n => exact wellKeyed_append hvalue
  | string s => exact wellKeyed_put hkey hvalue

theorem wellKeyed_of_mem_resolve {written : List Key} {ws : List ArrayWrite}
    (h : ∀ w ∈ ws, w.WellKeyed) {entries : List (Key × Value)}
    (hresolve : resolve written ws = some entries) :
    ∀ e ∈ entries, e.1.IsNormal ∧ e.2.WellKeyed := by
  induction ws generalizing written entries with
  | nil =>
    cases hresolve
    exact List.forall_mem_nil _
  | cons w ws ih =>
    obtain ⟨key, rest, hkey, hrest, rfl⟩ := resolve_cons_eq_some_iff.1 hresolve
    obtain ⟨hw, hws⟩ := List.forall_mem_cons.1 h
    refine List.forall_mem_cons.2 ⟨⟨?_, hw.2⟩, ih hws hrest⟩
    rcases Option.or_eq_some_iff.1 hkey with hkey | ⟨-, hnext⟩
    · exact hw.1 key hkey
    · obtain ⟨n, -, rfl⟩ := Option.map_eq_some_iff.1 hnext
      trivial

theorem wellKeyed_result {ws : List ArrayWrite} (h : ∀ w ∈ ws, w.WellKeyed) :
    (result ws).WellKeyed := by
  unfold result
  split
  · rename_i entries hresolve
    have hentries := wellKeyed_of_mem_resolve h hresolve
    have hmem (e : Key × Value) (he : e ∈ entries.foldl place []) :=
      hentries e ((mem_of_mem_foldl_place he).resolve_left List.not_mem_nil)
    exact .array (nodup_foldl_place List.nodup_nil) (fun e he => (hmem e he).1)
      fun e he => (hmem e he).2
  · exact .foreign _

end ArrayWrite

/-! ## Evaluation -/

mutual

/-- Well keyed variables give well keyed values. -/
theorem Expr.wellKeyed_eval {env : Bindings} (henv : ∀ binding ∈ env, binding.2.WellKeyed) :
    (e : Expr) → (e.eval env).WellKeyed
  | .literal value _ => by
    rw [Expr.eval]
    cases value <;> constructor
  | .array items => by
    rw [Expr.eval_array]
    exact ArrayWrite.wellKeyed_result (wellKeyed_writes henv items)
  | .variable name => by
    rw [Expr.eval]
    cases hlookup : env.lookup name with
    | none => exact .foreign _
    | some value =>
      obtain ⟨before, after, rfl, -⟩ := List.lookup_eq_some_iff.1 hlookup
      exact henv (name, value) (by simp)
  | .assign _ value => by
    rw [Expr.eval]
    exact Expr.wellKeyed_eval henv value
  | .closure .. => by rw [Expr.eval]; exact .foreign _
  | .new .. => by rw [Expr.eval]; exact .foreign _
  | .call .. => by rw [Expr.eval]; exact .foreign _
  | .raw _ => by rw [Expr.eval]; exact .foreign _

theorem wellKeyed_writes {env : Bindings} (henv : ∀ binding ∈ env, binding.2.WellKeyed) :
    (items : List ArrayItem) → ∀ w ∈ items.flatMap (·.writes env), w.WellKeyed
  | [] => List.forall_mem_nil _
  | item :: items => by
    rw [List.flatMap_cons, List.forall_mem_append]
    exact ⟨ArrayItem.wellKeyed_writes henv item, wellKeyed_writes henv items⟩

theorem ArrayItem.wellKeyed_writes {env : Bindings}
    (henv : ∀ binding ∈ env, binding.2.WellKeyed) :
    (item : ArrayItem) → ∀ w ∈ item.writes env, w.WellKeyed
  | .value e => by
    rw [ArrayItem.writes, List.forall_mem_singleton]
    exact ArrayWrite.wellKeyed_append (Expr.wellKeyed_eval henv e)
  | .entry k e => by
    have he := Expr.wellKeyed_eval henv e
    rw [ArrayItem.writes]
    split
    · rename_i key hkey
      rw [List.forall_mem_singleton]
      exact ArrayWrite.wellKeyed_put (Key.isNormal_of_key? hkey) he
    · rw [List.forall_mem_singleton]
      exact ArrayWrite.wellKeyed_append (.foreign _)
  | .spread e => by
    have he := Expr.wellKeyed_eval henv e
    rw [ArrayItem.writes]
    split
    · rename_i entries hentries
      rw [hentries] at he
      cases he with
      | array _ hkeys hvalues =>
        rw [List.forall_mem_map]
        exact fun e he => ArrayWrite.wellKeyed_ofEntry (hkeys e he) (hvalues e he)
    · rw [List.forall_mem_singleton]
      exact ArrayWrite.wellKeyed_append (.foreign _)

end

namespace Bindings

/-- The values of the variables and the returned value are well keyed. -/
def WellKeyed (state : Bindings × Option Value) : Prop :=
  (∀ binding ∈ state.1, binding.2.WellKeyed) ∧ ∀ value ∈ state.2, value.WellKeyed

theorem wellKeyed_step {state : Bindings × Option Value} (h : WellKeyed state) (s : Stmt) :
    WellKeyed (step state s) := by
  obtain ⟨env, returned⟩ := state
  unfold step
  simp only
  split
  · rename_i target value hform
    exact ⟨List.forall_mem_cons.2 ⟨value.wellKeyed_eval h.1, h.1⟩, h.2⟩
  · rename_i value hform
    exact ⟨h.1, fun v hv => Option.mem_some_iff.1 hv ▸ value.wellKeyed_eval h.1⟩
  · exact h

theorem wellKeyed_run {env : Bindings} (h : ∀ binding ∈ env, binding.2.WellKeyed)
    (statements : List Stmt) : WellKeyed (run env statements) := by
  have hfold (state : Bindings × Option Value) (hstate : WellKeyed state) :
      WellKeyed (statements.foldl step state) := by
    induction statements generalizing state with
    | nil => exact hstate
    | cons s statements ih => exact ih _ (wellKeyed_step hstate s)
  exact hfold (env, none) ⟨h, fun _ hv => absurd hv (Option.not_mem_none _)⟩

/-- The variables of one evaluator that has run these bodies in order. -/
def afterRuns (bodies : List (List Stmt)) : Bindings :=
  bodies.foldl (fun env statements => (run env statements).1) []

theorem wellKeyed_afterRuns (bodies : List (List Stmt)) :
    ∀ binding ∈ afterRuns bodies, binding.2.WellKeyed := by
  have hfold (env : Bindings) (henv : ∀ binding ∈ env, binding.2.WellKeyed) :
      ∀ binding ∈ bodies.foldl (fun env statements => (run env statements).1) env,
        binding.2.WellKeyed := by
    induction bodies generalizing env with
    | nil => exact henv
    | cons statements bodies ih => exact ih _ (wellKeyed_run henv statements).1
  exact hfold [] (List.forall_mem_nil _)

end Bindings

/-- **Every array literal follows one law**, whatever the variables: its items are written in order,
a key that is present keeps its place, and an append takes the key after the largest integer so far.
The array is lost exactly when something is appended after the greatest integer of all. So whatever
one evaluator has run, in every array among its variables and in what it returns the keys are
distinct, and no string is the text of an integer. -/
theorem Expr.eval_array_law :
    (∀ env items,
      (Expr.array items).eval env = ArrayWrite.result (items.flatMap (·.writes env))) ∧
    (∀ env items, (Expr.array items).eval env = .foreign "array" ↔
      ∃ before value after entries,
        items.flatMap (·.writes env) = before ++ ⟨none, value⟩ :: after ∧
        ArrayWrite.resolve [] before = some entries ∧ .int Number.maxInt ∈ entries.map (·.1)) ∧
    ∀ bodies, (∀ binding ∈ Bindings.afterRuns bodies, binding.2.WellKeyed) ∧
      ∀ statements, ∀ value ∈ ((Bindings.afterRuns bodies).run statements).2, value.WellKeyed := by
  refine ⟨Expr.eval_array, fun env items => ?_, fun bodies => ?_⟩
  · have hnone (ws : List ArrayWrite) :
        ArrayWrite.result ws = .foreign "array" ↔ ArrayWrite.resolve [] ws = none := by
      unfold ArrayWrite.result
      split <;> simp_all
    rw [Expr.eval_array, hnone, ArrayWrite.resolve_eq_none_iff]
    simp only [List.not_mem_nil, or_false]
  · have hbodies := Bindings.wellKeyed_afterRuns bodies
    exact ⟨hbodies, fun statements => (Bindings.wellKeyed_run hbodies statements).2⟩

/-- After `$a = ['7' => 1, 'k' => 2]` the literal `[-5 => 0, 3, ...$a, '8' => 4, 'k' => 5]` has the
keys `-5, 0, 1, 'k', 8`, and an append after the greatest integer loses the array. -/
theorem Expr.eval_array_law_spread :
    let int (n : Int) : Expr := .literal (.int n) ""
    let string (s : String) : Expr := .literal (.string s) ""
    let a := Expr.array [.entry (string "7") (int 1), .entry (string "k") (int 2)]
    let env := Bindings.afterRuns [[.mk (.expr (.assign "a" a)) [] []]]
    (Expr.array [.entry (int (-5)) (int 0), .value (int 3), .spread (.variable "a"),
        .entry (string "8") (int 4), .entry (string "k") (int 5)]).eval env =
      .array [(.int (-5), .int 0), (.int 0, .int 3), (.int 1, .int 1), (.string "k", .int 5),
        (.int 8, .int 4)] ∧
      (Expr.array [.entry (int Number.maxInt) (int 1), .value (int 2)]).eval env =
        .foreign "array" ∧
      ("a", .array [(.int 7, .int 1), (.string "k", .int 2)]) ∈ env ∧
      (Value.array [(.int 7, .int 1), (.string "k", .int 2)]).WellKeyed := by
  intro int string a env
  obtain ⟨hlaw, hoverflow, hkeys⟩ := Expr.eval_array_law
  have henv : env = [("a", .array [(.int 7, .int 1), (.string "k", .int 2)])] := by
    have ha : env = [("a", a.eval [])] := rfl
    rw [ha, hlaw]
    rfl
  have hmem : ("a", .array [(.int 7, .int 1), (.string "k", .int 2)]) ∈ env := by
    rw [henv, List.mem_singleton]
  refine ⟨?_, ?_, hmem, (hkeys _).1 _ hmem⟩
  · rw [hlaw, henv]
    rfl
  · exact (hoverflow _ _).2 ⟨[⟨some (.int Number.maxInt), .int 1⟩], .int 2, [],
      [(.int Number.maxInt, .int 1)], rfl, rfl, List.mem_cons_self⟩

end CurryGen

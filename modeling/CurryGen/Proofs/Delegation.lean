import CurryGen.Template.Memo
import Mathlib.Data.List.Chain
import Mathlib.Data.List.Induction
import Mathlib.Data.List.Nodup

/-!
# Delegation, remembered or not

`Resolves t visited name answer` is the delegation of `name` by rules, met after the names in
`visited`. `Memo.walk` finds the same answer out of what earlier queries left behind.

* `Returns`, `Yields`: which expression decides, and what it says, by the forms of the syntax.
* `resolves_iff`: the rules and `Template.walk` agree, so each name has exactly one answer.
* `Memo.walk_spec`: a query on a sound memo answers as `Template.walk` does, leaves the memo sound
  and takes every name it put on the stack off again.
* `forall_resolves_answers`: the answers to any queries, in any order of the functions.

The invariant of the memo is `Memo.Sound`. Its heart is `Ends t n name params`: from `name` the
delegation reaches, after exactly `n` steps, a function whose body gives `params`. The names on the
stack are further away from that function than `name` is, so none of them is met again.
-/

namespace CurryGen.Template

/-! ## The rules -/

/-- The last top-level `return` with a value returns `e`: no statement after it returns a value. -/
def Returns (f : TemplateFunction) (e : Expr) : Prop :=
  ∃ before s after, f.statements = before ++ s :: after ∧ s.form = .ret (some e) ∧
    ∀ later ∈ after, ∀ value, later.form ≠ .ret (some value)

/-- A class name that stands for the class it is used in: `static` or `self`, in upper or lower
case. -/
def NamesOwnClass (className : String) : Prop :=
  className.toList.map Char.toLower = "static".toList ∨
    className.toList.map Char.toLower = "self".toList

/-- The parameters of the first closure among arguments. Arguments without a closure have none. -/
inductive FirstClosure : List Expr → List Param → Prop
  | found {before after : List Expr} {head : ClosureHead} {body : ClosureBody} :
      (∀ e ∈ before, ∀ head body, e ≠ .closure head body) →
      FirstClosure (before ++ .closure head body :: after) head.params
  | absent {args : List Expr} :
      (∀ e ∈ args, ∀ head body, e ≠ .closure head body) → FirstClosure args []

/-- What a returned expression says about the inner parameters. -/
inductive Yields (t : Template) : Expr → Delegation → Prop
  | closure (head : ClosureHead) (body : ClosureBody) :
      Yields t (.closure head body) (.params head.params)
  | callee {className method : String} {args : List Expr} :
      NamesOwnClass className → method ∈ t.names →
      Yields t (.call (.static className method) args) (.function method)
  | curry {className method : String} {args : List Expr} {ps : List Param} :
      NamesOwnClass className → method ∉ t.names → method = t.combinators.curry →
      FirstClosure args ps → Yields t (.call (.static className method) args) (.params ps)
  | fix {className method : String} {args : List Expr} :
      NamesOwnClass className → method ∉ t.names → method ≠ t.combinators.curry →
      method = t.combinators.fix →
      Yields t (.call (.static className method) args)
        (.params [{ name := "arguments", variadic := true }])
  | method {className method : String} {args : List Expr} :
      NamesOwnClass className → method ∉ t.names → method ≠ t.combinators.curry →
      method ≠ t.combinators.fix → Yields t (.call (.static className method) args) (.params [])
  | foreign {className method : String} {args : List Expr} :
      ¬ NamesOwnClass className → Yields t (.call (.static className method) args) (.params [])
  | other {e : Expr} :
      (∀ head body, e ≠ .closure head body) → (∀ c m args, e ≠ .call (.static c m) args) →
      Yields t e (.params [])

/-- The delegation of a name that is met after the names in `visited`. -/
inductive Resolves (t : Template) : List String → String → Except Error (List Param) → Prop
  | unknown {visited : List String} {name : String} :
      name ∉ t.names → Resolves t visited name (.error (.unknownFunction name))
  | cyclic {visited : List String} {name : String} :
      name ∈ t.names → name ∈ visited →
      Resolves t visited name (.error (.cyclicDelegation (visited ++ [name])))
  | missing {visited : List String} {f : TemplateFunction} :
      f ∈ t.functions → f.name ∉ visited → (∀ e, ¬ Returns f e) →
      Resolves t visited f.name (.error (.missingReturn f.name))
  | params {visited : List String} {f : TemplateFunction} {e : Expr} {ps : List Param} :
      f ∈ t.functions → f.name ∉ visited → Returns f e → Yields t e (.params ps) →
      Resolves t visited f.name (.ok ps)
  | function {visited : List String} {f : TemplateFunction} {e : Expr} {next : String}
      {answer : Except Error (List Param)} :
      f ∈ t.functions → f.name ∉ visited → Returns f e → Yields t e (.function next) →
      Resolves t (visited ++ [f.name]) next answer → Resolves t visited f.name answer

variable {t t' : Template}

/-! ## The rules and the walk -/

theorem returned?_eq_some_iff {f : TemplateFunction} {e : Expr} :
    returned? f = some e ↔ Returns f e := by
  rw [returned?, List.findSome?_eq_some_iff]
  simp only [Stmt.returned?_eq_some_iff, Stmt.returned?_eq_none_iff]
  -- the statements are searched from the last one on
  constructor
  · rintro ⟨after, s, before, hsplit, hs, hafter⟩
    have hstatements : f.statements = before.reverse ++ s :: after.reverse := by
      simpa using congrArg List.reverse hsplit
    exact ⟨before.reverse, s, after.reverse, hstatements, hs,
      fun later hlater => hafter later (List.mem_reverse.1 hlater)⟩
  · rintro ⟨before, s, after, hstatements, hs, hafter⟩
    exact ⟨after.reverse, s, before.reverse, by simp [hstatements], hs,
      fun later hlater => hafter later (List.mem_reverse.1 hlater)⟩

theorem Returns.exists_mem {f : TemplateFunction} {e : Expr} (h : Returns f e) :
    ∃ s ∈ f.statements, s.form = .ret (some e) := by
  obtain ⟨before, s, after, hstatements, hs, -⟩ := h
  exact ⟨s, by simp [hstatements], hs⟩

theorem isOwnClass_iff {className : String} :
    isOwnClass className = true ↔ NamesOwnClass className := by
  have hlower : className.toLower.toList = className.toList.map Char.toLower := String.toList_map
  simp only [isOwnClass, NamesOwnClass, Bool.or_eq_true_iff, beq_iff_eq, ← String.toList_inj, hlower]

theorem firstClosure_iff {args : List Expr} {ps : List Param} :
    FirstClosure args ps ↔ (args.findSome? Expr.closureParams?).getD [] = ps := by
  constructor
  · intro h
    cases h with
    | found hbefore =>
      simp only [← Expr.closureParams?_eq_none_iff] at hbefore
      rw [List.findSome?_append, List.findSome?_eq_none_iff.2 hbefore]
      rfl
    | absent hargs =>
      simp only [← Expr.closureParams?_eq_none_iff] at hargs
      rw [List.findSome?_eq_none_iff.2 hargs]
      rfl
  · rintro rfl
    cases hfind : args.findSome? Expr.closureParams? with
    | none =>
      have hnone := List.findSome?_eq_none_iff.1 hfind
      exact .absent fun e he => Expr.closureParams?_eq_none_iff.1 (hnone e he)
    | some ps =>
      obtain ⟨before, e, after, rfl, he, hbefore⟩ := List.findSome?_eq_some_iff.1 hfind
      obtain ⟨head, body, rfl, rfl⟩ := Expr.closureParams?_eq_some_iff.1 he
      exact .found fun e he => Expr.closureParams?_eq_none_iff.1 (hbefore e he)

theorem Yields.eq {e : Expr} {d : Delegation} (h : Yields t e d) : t.delegation e = d := by
  cases h with
  | closure => rfl
  | callee hown hmem => simp [delegation, isOwnClass_iff.2 hown, contains, hmem]
  | curry hown hmem hcurry hargs =>
    subst hcurry
    simp [delegation, isOwnClass_iff.2 hown, contains, hmem, firstClosure_iff.1 hargs]
  | fix hown hmem hcurry hfix =>
    subst hfix
    simp [delegation, isOwnClass_iff.2 hown, contains, hmem, hcurry, Signature.collectedArguments]
  | method hown hmem hcurry hfix =>
    simp [delegation, isOwnClass_iff.2 hown, contains, hmem, hcurry, hfix]
  | foreign hown =>
    rw [← isOwnClass_iff, Bool.not_eq_true] at hown
    simp [delegation, hown]
  | other hclosure hcall =>
    unfold delegation
    split
    · exact absurd rfl (hclosure _ _)
    · exact absurd rfl (hcall _ _ _)
    · rfl

/-- The rules cover every expression. -/
theorem exists_yields (t : Template) (e : Expr) : ∃ d, Yields t e d := by
  by_cases hclosure : ∃ head body, e = .closure head body
  · obtain ⟨head, body, rfl⟩ := hclosure
    exact ⟨_, .closure head body⟩
  by_cases hcall : ∃ c m args, e = .call (.static c m) args
  · obtain ⟨className, method, args, rfl⟩ := hcall
    by_cases hown : NamesOwnClass className
    · by_cases hmem : method ∈ t.names
      · exact ⟨_, .callee hown hmem⟩
      by_cases hcurry : method = t.combinators.curry
      · exact ⟨_, .curry hown hmem hcurry (firstClosure_iff.2 rfl)⟩
      by_cases hfix : method = t.combinators.fix
      · exact ⟨_, .fix hown hmem hcurry hfix⟩
      · exact ⟨_, .method hown hmem hcurry hfix⟩
    · exact ⟨_, .foreign hown⟩
  · refine ⟨_, .other (fun head body h => hclosure ⟨head, body, h⟩) fun c m args h => ?_⟩
    exact hcall ⟨c, m, args, h⟩

theorem yields_iff {e : Expr} {d : Delegation} : Yields t e d ↔ t.delegation e = d := by
  refine ⟨Yields.eq, ?_⟩
  rintro rfl
  obtain ⟨d, hd⟩ := exists_yields t e
  rwa [hd.eq]

theorem find?_eq_some_iff {name : String} {f : TemplateFunction} :
    t.find? name = some f ↔ f ∈ t.functions ∧ f.name = name := by
  constructor
  · intro h
    exact ⟨List.mem_of_find?_eq_some h, by simpa using List.find?_some h⟩
  · intro hright
    obtain ⟨hmem, rfl⟩ := hright
    have hinj := List.inj_on_of_nodup_map t.nodup
    cases hfind : t.find? f.name with
    | none => exact absurd (beq_self_eq_true f.name) (List.find?_eq_none.1 hfind f hmem)
    | some g =>
      have hname : g.name = f.name := by simpa using List.find?_some hfind
      rw [hinj (List.mem_of_find?_eq_some hfind) hmem hname]

theorem find?_eq_none_iff {name : String} : t.find? name = none ↔ name ∉ t.names := by
  simp [find?, names, List.find?_eq_none]

theorem walk_of_resolves {visited : List String} {name : String}
    {answer : Except Error (List Param)} (h : Resolves t visited name answer) :
    t.walk visited name = answer := by
  induction h with
  | unknown hname =>
    rw [walk, find?_eq_none_iff.2 hname]
  | @cyclic visited name hname hvisited =>
    rw [walk]
    split
    · rename_i hfind
      exact absurd hname (find?_eq_none_iff.1 hfind)
    · simp [hvisited]
  | @missing visited f hf hvisited hmissing =>
    rw [walk, find?_eq_some_iff.2 ⟨hf, rfl⟩]
    cases hret : returned? f with
    | none => simp [hvisited, hret]
    | some e => exact absurd (returned?_eq_some_iff.1 hret) (hmissing e)
  | params hf hvisited hret hyields =>
    rw [walk, find?_eq_some_iff.2 ⟨hf, rfl⟩]
    simp [hvisited, returned?_eq_some_iff.2 hret, hyields.eq]
  | function hf hvisited hret hyields _ ih =>
    rw [walk, find?_eq_some_iff.2 ⟨hf, rfl⟩]
    simp [hvisited, returned?_eq_some_iff.2 hret, hyields.eq, ih]

/-- The rules and the walk agree: every name has exactly one answer. -/
theorem resolves_iff {visited : List String} {name : String} {answer : Except Error (List Param)} :
    Resolves t visited name answer ↔ t.walk visited name = answer := by
  refine ⟨walk_of_resolves, ?_⟩
  rintro rfl
  induction visited, name using walk.induct t with
  | case1 visited name hfind =>
    rw [walk, hfind]
    exact .unknown (find?_eq_none_iff.1 hfind)
  | case2 visited name f hfind hvisited =>
    rw [walk, hfind]
    obtain ⟨hf, rfl⟩ := find?_eq_some_iff.1 hfind
    simpa [hvisited] using .cyclic (List.mem_map_of_mem hf) hvisited
  | case3 visited name f hfind hvisited hret =>
    rw [walk, hfind]
    obtain ⟨hf, rfl⟩ := find?_eq_some_iff.1 hfind
    have hmissing : ∀ e, ¬ Returns f e := fun e he => by
      rw [returned?_eq_some_iff.2 he] at hret
      cases hret
    simpa [hvisited, hret] using .missing hf hvisited hmissing
  | case4 visited name f hfind hvisited value hret params hdel =>
    rw [walk, hfind]
    obtain ⟨hf, rfl⟩ := find?_eq_some_iff.1 hfind
    simpa [hvisited, hret, hdel] using
      .params hf hvisited (returned?_eq_some_iff.1 hret) (yields_iff.2 hdel)
  | case5 visited name f hfind hvisited value hret next hdel ih =>
    rw [walk, hfind]
    obtain ⟨hf, rfl⟩ := find?_eq_some_iff.1 hfind
    simpa [hvisited, hret, hdel] using
      .function hf hvisited (returned?_eq_some_iff.1 hret) (yields_iff.2 hdel) ih

/-! ## The order of the functions -/

theorem mem_names_of_perm (hperm : t'.functions.Perm t.functions) (name : String) :
    name ∈ t'.names ↔ name ∈ t.names :=
  (hperm.map _).mem_iff

theorem Yields.of_perm (hperm : t'.functions.Perm t.functions)
    (hcombinators : t'.combinators = t.combinators) {e : Expr} {d : Delegation}
    (h : Yields t e d) : Yields t' e d := by
  have hnames := mem_names_of_perm hperm
  cases h with
  | closure head body => exact .closure head body
  | callee hown hmem => exact .callee hown ((hnames _).2 hmem)
  | curry hown hmem hcurry hargs =>
    exact .curry hown (mt (hnames _).1 hmem) (hcombinators ▸ hcurry) hargs
  | fix hown hmem hcurry hfix =>
    exact .fix hown (mt (hnames _).1 hmem) (hcombinators ▸ hcurry) (hcombinators ▸ hfix)
  | method hown hmem hcurry hfix =>
    exact .method hown (mt (hnames _).1 hmem) (hcombinators ▸ hcurry) (hcombinators ▸ hfix)
  | foreign hown => exact .foreign hown
  | other hclosure hcall => exact .other hclosure hcall

theorem Resolves.of_perm (hperm : t'.functions.Perm t.functions)
    (hcombinators : t'.combinators = t.combinators) {visited : List String} {name : String}
    {answer : Except Error (List Param)} (h : Resolves t visited name answer) :
    Resolves t' visited name answer := by
  induction h with
  | unknown hname => exact .unknown (mt (mem_names_of_perm hperm _).1 hname)
  | cyclic hname hvisited => exact .cyclic ((mem_names_of_perm hperm _).2 hname) hvisited
  | missing hf hvisited hmissing => exact .missing (hperm.mem_iff.2 hf) hvisited hmissing
  | params hf hvisited hret hyields =>
    exact .params (hperm.mem_iff.2 hf) hvisited hret (hyields.of_perm hperm hcombinators)
  | function hf hvisited hret hyields _ ih =>
    exact .function (hperm.mem_iff.2 hf) hvisited hret (hyields.of_perm hperm hcombinators) ih

/-- The order in which the functions are declared does not matter. -/
theorem walk_of_perm (hperm : t'.functions.Perm t.functions)
    (hcombinators : t'.combinators = t.combinators) (visited : List String) (name : String) :
    t'.walk visited name = t.walk visited name :=
  resolves_iff.1 ((resolves_iff.2 rfl : Resolves t visited name _).of_perm hperm hcombinators)

/-! ## How far a name is from its parameters -/

/-- From `name` the delegation reaches after `n` steps a function whose body gives `params`. -/
inductive Ends (t : Template) : Nat → String → List Param → Prop
  | here {name : String} {f : TemplateFunction} {e : Expr} {ps : List Param} :
      t.find? name = some f → returned? f = some e → t.delegation e = .params ps →
      Ends t 0 name ps
  | step {n : Nat} {name next : String} {f : TemplateFunction} {e : Expr} {ps : List Param} :
      t.find? name = some f → returned? f = some e → t.delegation e = .function next →
      Ends t n next ps → Ends t (n + 1) name ps

/-- The body of the function `name` delegates to `next`. -/
def DelegatesTo (t : Template) (name next : String) : Prop :=
  ∃ f e, f ∈ t.functions ∧ f.name = name ∧ Returns f e ∧ Yields t e (.function next)

theorem delegatesTo_iff {name next : String} : t.DelegatesTo name next ↔
    ∃ f e, t.find? name = some f ∧ returned? f = some e ∧ t.delegation e = .function next := by
  simp only [DelegatesTo, find?_eq_some_iff, returned?_eq_some_iff, yields_iff, and_assoc]

theorem Ends.unique {n m : Nat} {name : String} {ps qs : List Param} (h : Ends t n name ps)
    (h' : Ends t m name qs) : n = m ∧ ps = qs := by
  induction h generalizing m with
  | here hf he hd =>
    cases h' with
    | here hf' he' hd' => simp_all
    | step hf' he' hd' _ => simp_all
  | step hf he hd _ ih =>
    cases h' with
    | here hf' he' hd' => simp_all
    | step hf' he' hd' hends' =>
      obtain rfl : _ = _ := Option.some.inj (hf.symm.trans hf')
      obtain rfl : _ = _ := Option.some.inj (he.symm.trans he')
      obtain rfl : _ = _ := Delegation.function.inj (hd.symm.trans hd')
      obtain ⟨rfl, rfl⟩ := ih hends'
      exact ⟨rfl, rfl⟩

theorem exists_ends_of_walk {visited : List String} {name : String} {ps : List Param}
    (h : t.walk visited name = .ok ps) : ∃ n, Ends t n name ps := by
  induction visited, name using walk.induct t with
  | case1 visited name hfind => rw [walk, hfind] at h; cases h
  | case2 visited name f hfind hvisited => rw [walk, hfind] at h; simp [hvisited] at h
  | case3 visited name f hfind hvisited hret => rw [walk, hfind] at h; simp [hvisited, hret] at h
  | case4 visited name f hfind hvisited e hret params hdel =>
    rw [walk, hfind] at h
    obtain rfl : params = ps := by simpa [hvisited, hret, hdel] using h
    exact ⟨0, .here hfind hret hdel⟩
  | case5 visited name f hfind hvisited e hret next hdel ih =>
    rw [walk, hfind] at h
    obtain ⟨n, hn⟩ := ih (by simpa [hvisited, hret, hdel] using h)
    exact ⟨n + 1, .step hfind hret hdel hn⟩

theorem Ends.notMem {n : Nat} {name : String} {ps : List Param} (h : Ends t n name ps)
    {visited : List String} (hfar : ∀ v ∈ visited, ∃ k, n < k ∧ Ends t k v ps) :
    name ∉ visited := by
  intro hmem
  obtain ⟨k, hk, hends⟩ := hfar name hmem
  have := (h.unique hends).1
  omega

/-- A walk through names that are all further away than `name` meets none of them again. -/
theorem Ends.walk_eq {n : Nat} {name : String} {ps : List Param} (h : Ends t n name ps)
    {visited : List String} (hfar : ∀ v ∈ visited, ∃ k, n < k ∧ Ends t k v ps) :
    t.walk visited name = .ok ps := by
  induction h generalizing visited with
  | here hf he hd =>
    rw [walk, hf]
    simp [Ends.notMem (.here hf he hd) hfar, he, hd]
  | @step n name next f e ps hf he hd hends ih =>
    rw [walk, hf]
    simp only [Ends.notMem (.step hf he hd hends) hfar, he, hd, dite_false]
    refine ih fun v hv => ?_
    rcases List.mem_append.1 hv with hv | hv
    · obtain ⟨k, hk, hends⟩ := hfar v hv
      exact ⟨k, by omega, hends⟩
    · obtain rfl := List.mem_singleton.1 hv
      exact ⟨n + 1, by omega, .step hf he hd hends⟩

/-- The names on a path of delegations to `name` are further away than `name` is. -/
theorem Ends.of_path {n : Nat} {name : String} {ps : List Param} (h : Ends t n name ps)
    {path : List String} (hpath : (path ++ [name]).IsChain t.DelegatesTo) :
    ∀ v ∈ path, ∃ k, n < k ∧ Ends t k v ps := by
  induction path using List.reverseRecOn generalizing n name with
  | nil => simp
  | append_singleton path last ih =>
    have hpath' : (path ++ [last]).IsChain t.DelegatesTo := hpath.left_of_append
    have hlast : t.DelegatesTo last name := by
      rw [List.append_assoc] at hpath
      simpa using hpath.right_of_append
    obtain ⟨f, e, hf, he, hd⟩ := delegatesTo_iff.1 hlast
    have hends : Ends t (n + 1) last ps := .step hf he hd h
    intro v hv
    rcases List.mem_append.1 hv with hv | hv
    · obtain ⟨k, hk, hv⟩ := ih hends hpath' v hv
      exact ⟨k, by omega, hv⟩
    · obtain rfl := List.mem_singleton.1 hv
      exact ⟨n + 1, by omega, hends⟩

/-! ## The memo -/

namespace Memo

@[simp] theorem resolving_enter (memo : Memo) (name : String) :
    (memo.enter name).resolving = memo.resolving ++ [name] := rfl

@[simp] theorem resolving_leave (memo : Memo) (name : String)
    (answer : Except Error (List Param)) :
    (memo.leave name answer).resolving = memo.resolving.dropLast := rfl

/-- What the memo knows is where delegations end. -/
def Sound (t : Template) (memo : Memo) : Prop :=
  ∀ name ps, memo.known.lookup name = some ps → ∃ n, Ends t n name ps

/-- The stack of the memo is a path of delegations to `name`. -/
def LeadsTo (t : Template) (memo : Memo) (name : String) : Prop :=
  (memo.resolving ++ [name]).IsChain t.DelegatesTo

theorem sound_empty : Sound t {} := by
  intro name ps h
  simp at h

theorem Sound.enter {memo : Memo} (h : Sound t memo) (name : String) :
    Sound t (memo.enter name) :=
  h

theorem LeadsTo.enter {memo : Memo} {name next : String} (h : memo.LeadsTo t name)
    (hnext : t.DelegatesTo name next) : (memo.enter name).LeadsTo t next := by
  refine List.IsChain.append h (by simp) ?_
  intro last hlast head hhead
  obtain rfl : name = last := by simpa using hlast
  obtain rfl : next = head := by simpa using hhead
  exact hnext

theorem Sound.leave {memo : Memo} (h : Sound t memo) {name : String}
    {answer : Except Error (List Param)} {visited : List String}
    (hanswer : t.walk visited name = answer) : Sound t (memo.leave name answer) := by
  intro other ps hlookup
  cases answer with
  | error e => exact h other ps hlookup
  | ok params =>
    simp only [Memo.leave, List.lookup_cons] at hlookup
    split at hlookup
    · rename_i heq
      obtain rfl : other = name := by simpa using heq
      obtain rfl : params = ps := by simpa using hlookup
      exact exists_ends_of_walk hanswer
    · exact h other ps hlookup

/-- A query on a sound memo answers as the walk does, keeps the memo sound and restores the
stack. -/
theorem walk_spec {memo : Memo} {name : String} (hsound : memo.Sound t)
    (hpath : memo.LeadsTo t name) :
    (walk t memo name).1 = t.walk memo.resolving name ∧ (walk t memo name).2.Sound t ∧
      (walk t memo name).2.resolving = memo.resolving := by
  induction memo, name using walk.induct t with
  | case1 memo name hfind =>
    rw [walk, Template.walk, hfind]
    exact ⟨rfl, hsound, rfl⟩
  | case2 memo name f hfind ps hknown =>
    obtain ⟨n, hends⟩ := hsound name ps hknown
    rw [walk, hfind]
    simp only [hknown]
    exact ⟨(hends.walk_eq (hends.of_path hpath)).symm, hsound, trivial⟩
  | case3 memo name f hfind hknown hvisited =>
    rw [walk, Template.walk, hfind]
    simp [hknown, hvisited, hsound]
  | case4 memo name f hfind hknown hvisited ih =>
    -- it is enough that the body of `f` is looked into well, one level further down
    have hleave (answer : Except Error (List Param)) (after : Memo)
        (hanswer : answer = t.walk memo.resolving name) (hsound' : after.Sound t)
        (hstack : after.resolving = memo.resolving ++ [name]) :
        answer = t.walk memo.resolving name ∧ (after.leave name answer).Sound t ∧
          (after.leave name answer).resolving = memo.resolving :=
      ⟨hanswer, hsound'.leave hanswer.symm, by simp [hstack]⟩
    rw [walk, hfind]
    simp only [hknown, hvisited, dite_false]
    cases hret : returned? f with
    | none =>
      refine hleave _ (memo.enter name) ?_ (hsound.enter name) rfl
      rw [Template.walk, hfind]
      simp [hvisited, hret]
    | some e =>
      cases hdel : t.delegation e with
      | params ps =>
        simp only [hdel]
        refine hleave _ (memo.enter name) ?_ (hsound.enter name) rfl
        rw [Template.walk, hfind]
        simp [hvisited, hret, hdel]
      | function next =>
        have hnext : t.DelegatesTo name next := delegatesTo_iff.2 ⟨f, e, hfind, hret, hdel⟩
        obtain ⟨hanswer, hsound', hstack⟩ := ih next (hsound.enter name) (hpath.enter hnext)
        simp only [hdel]
        refine hleave _ _ ?_ hsound' hstack
        rw [Template.walk, hfind]
        simpa [hvisited, hret, hdel] using hanswer

/-- The answers to queries, one after another, and what is known after the last. -/
def answers (t : Template) (memo : Memo) :
    List String → List (Except Error (List Param)) × Memo
  | [] => ([], memo)
  | name :: names =>
    let (answer, memo) := innerParams t memo name
    let (rest, memo) := answers t memo names
    (answer :: rest, memo)

theorem answers_spec {memo : Memo} (hsound : memo.Sound t) (hstack : memo.resolving = [])
    (names : List String) :
    (answers t memo names).1 = names.map t.innerParams ∧
      (answers t memo names).2.resolving = [] := by
  induction names generalizing memo with
  | nil => exact ⟨rfl, hstack⟩
  | cons name names ih =>
    have hpath : memo.LeadsTo t name := by simp [LeadsTo, hstack]
    obtain ⟨hanswer, hsound', hstack'⟩ := walk_spec hsound hpath
    obtain ⟨hrest, hempty⟩ := ih hsound' (hstack'.trans hstack)
    rw [hstack] at hanswer
    exact ⟨by simp [answers, innerParams, Template.innerParams, hanswer, hrest], hempty⟩

end Memo

/-- **Delegation is answered by the rules.** Every answer to a sequence of queries is the only one
that the rules give its name, whatever was asked before and in whatever order the functions are
declared; and no query leaves a name on the stack. -/
theorem forall_resolves_answers (hperm : t'.functions.Perm t.functions)
    (hcombinators : t'.combinators = t.combinators) (names : List String) :
    List.Forall₂ (fun name answer => ∀ a, Resolves t [] name a ↔ a = answer) names
        (Memo.answers t' {} names).1 ∧
      (Memo.answers t' {} names).2.resolving = [] := by
  obtain ⟨hanswers, hstack⟩ := Memo.answers_spec (t := t') Memo.sound_empty rfl names
  refine ⟨?_, hstack⟩
  rw [hanswers, List.forall₂_map_right_iff, List.forall₂_same]
  intro name _ a
  rw [resolves_iff, innerParams, walk_of_perm hperm hcombinators, eq_comm]

/-- A closure with one parameter. -/
def closureOf (param : String) : Expr :=
  .closure { isStatic := false, params := [{ name := param }], uses := [], returnType := none }
    (.block [])

/-- Functions whose delegation ends in a closure (`first`, `second`), in the argument of a combinator
(`curried`), in a circle (`around`) and in a body that returns no value (`silent`). -/
def chain : Template where
  functions :=
    [("first", [.ret (some (.call (.static "static" "second") []))]),
      ("second", [.ret (some (.variable "y")), .ret (some (closureOf "x")), .ret none, .block]),
      ("curried", [.ret (some (.call (.static "Self" "curryN")
        [.variable "n", closureOf "a", closureOf "b"]))]),
      ("around", [.ret (some (.call (.static "self" "around") []))]),
      ("silent", [.block, .ret none])].map fun (name, forms) =>
        ⟨{ name, body := some (forms.map fun form => .mk form [] []) }⟩
  combinators := {}
  nodup := by decide

/-- The functions of `chain` in the other order. -/
def chainReversed : Template :=
  { chain with functions := chain.functions.reverse, nodup := by decide }

/-- The functions of `chain` and a name that is none of them. -/
def chainNames : List String := ["first", "second", "third", "curried", "around", "silent"]

/-- The second query finds the memo filled, in either order of the functions. -/
theorem forall_resolves_answers_chain :
    chainReversed.functions.Perm chain.functions ∧
      chainReversed.combinators = chain.combinators ∧
      List.Forall₂ (fun name answer => ∀ a, Resolves chain [] name a ↔ a = answer) chainNames
        (Memo.answers chainReversed {} chainNames).1 ∧
      (Memo.answers chainReversed {} chainNames).1 =
        [.ok [{ name := "x" }], .ok [{ name := "x" }], .error (.unknownFunction "third"),
          .ok [{ name := "a" }], .error (.cyclicDelegation ["around", "around"]),
          .error (.missingReturn "silent")] ∧
      (Memo.answers chainReversed {} chainNames).2.resolving = [] := by
  have hperm : chainReversed.functions.Perm chain.functions := List.reverse_perm _
  obtain ⟨hrules, hstack⟩ := forall_resolves_answers hperm rfl chainNames
  exact ⟨hperm, rfl, hrules, by decide +kernel, hstack⟩

end CurryGen.Template

import CurryGen.Proofs.Tree.Split

/-!
# Where the parts of an expression come from

Every name in the form of an expression is the name or the variable of a token of its run, and every
part that is still to be read has only tokens of the run.

* `Shape.ReadFrom`: the names and parts of a form come from these tokens.
* `Shape.readFrom_of`: the form of a run comes from the run.
* `Statement.sublist_of_classify_ret`, `Statement.sublist_of_classify_expr`: so does the expression of
  a statement.
* `Expr.From S`, `Stmt.From S`: what is read from code with a property; the parts that later stages
  look into are read from such code again, if the property passes to parts of the code.
-/

namespace CurryGen

namespace Run

variable {ts inner rest : Run}

/-- The run has a variable of this name. -/
def HasVariable (ts : Run) (name : String) : Prop := ∃ t ∈ ts, t.variableName? = some name

/-- The run has this name. -/
def HasName (ts : Run) (name : String) : Prop := ∃ t ∈ ts, t.name? = some name

theorem HasVariable.mono {us : Run} {name : String} (h : us.HasVariable name) (hus : us.Sublist ts) :
    ts.HasVariable name := by
  obtain ⟨t, ht, hname⟩ := h
  exact ⟨t, hus.subset ht, hname⟩

/-! ## Brackets and separators -/

theorem sublist_of_group? (h : ts.group? = some (inner, rest)) :
    inner.Sublist ts ∧ rest.Sublist ts := by
  obtain ⟨opening, close, rfl, -⟩ := group?_eq_some_iff.1 h
  constructor
  · exact (List.sublist_append_left inner _).trans (List.sublist_cons_self _ _)
  · refine List.Sublist.trans ?_ (List.sublist_cons_self _ _)
    exact (List.sublist_cons_self _ _).trans (List.sublist_append_right inner _)

theorem sublist_of_parens? (h : ts.parens? = some (inner, rest)) :
    inner.Sublist ts ∧ rest.Sublist ts := by
  unfold parens? at h
  split at h
  · exact sublist_of_group? h
  · cases h

theorem sublist_of_mem_splitTopLevel {separator : String} {piece : Run}
    (h : piece ∈ ts.splitTopLevel separator) : piece.Sublist ts :=
  (List.sublist_flatten_of_mem (mem_of_mem_dropEmptyLast h)).trans
    (flatten_piecesFrom_sublist separator 0 ts)

theorem sublist_of_breakFrom {symbol : String} {depth : Nat} {before after : Run}
    (h : breakFrom symbol depth ts = some (before, after)) :
    before.Sublist ts ∧ after.Sublist ts := by
  induction ts generalizing depth before with
  | nil => cases h
  | cons t ts ih =>
    rw [breakFrom] at h
    split at h
    · cases h
      exact ⟨List.nil_sublist _, List.sublist_cons_self _ _⟩
    · obtain ⟨⟨before', after'⟩, h', heq⟩ := Option.map_eq_some_iff.1 h
      cases heq
      obtain ⟨hbefore, hafter⟩ := ih h'
      exact ⟨hbefore.cons_cons t, hafter.cons t⟩

theorem sublist_of_arguments? {args : List Run} (h : ts.arguments? = some args) :
    ∀ arg ∈ args, arg.Sublist ts := by
  unfold arguments? at h
  split at h
  · rename_i inner hparens
    cases h
    intro arg harg
    exact (sublist_of_mem_splitTopLevel harg).trans (sublist_of_parens? hparens).1
  · cases h

end Run

/-- A parameter is named by a variable of what it is read from. -/
theorem Param.hasVariable_of_ofRun? {ts : Run} {p : Param}
    (h : ofRun? ts = some p) : ts.HasVariable p.name := by
  obtain ⟨v, after, hsplit, hvariable⟩ := exists_variable_of_ofRun? h
  simp only [ofRun?, hsplit] at h
  cases h
  have hv : v ∈ ts.dropWhile (!·.isVariable) := by
    rw [hsplit]
    exact List.mem_cons_self
  have hkind : v.kind = .variable := eq_of_beq hvariable
  exact ⟨v, (List.dropWhile_suffix _).subset hv, by simp [Token.variableName?, hkind]⟩

/-! ## Forms -/

/-- What a closure declares comes from these tokens. -/
structure ClosureHead.ReadFrom (ts : Run) (head : ClosureHead) : Prop where
  params : ∃ inner, inner.Sublist ts ∧ head.params = Param.listOfRun inner
  uses : ∀ c ∈ head.uses, ts.HasVariable c.name
  returnType : ∀ type ∈ head.returnType, ∃ r, r.Sublist ts ∧ type = Run.join r

/-- The names of what is called come from these tokens. -/
def Callee.ReadFrom (ts : Run) : Callee → Prop
  | .function name => ts.HasName name
  | .static className name => ts.HasName className ∧ ts.HasName name
  | .method receiver name => ts.HasVariable receiver ∧ ts.HasName name

namespace Shape

/-- The names and the parts of a form come from these tokens. -/
def ReadFrom (ts : Run) : Shape → Prop
  | .assign target value => ts.HasVariable target ∧ value.Sublist ts
  | .arrow head value => head.ReadFrom ts ∧ value.Sublist ts
  | .block head body => head.ReadFrom ts ∧ body.Sublist ts
  | .array items => ∀ item ∈ items, item.Sublist ts
  | .literal value source => Literal.ofRun? ts = some (value, source)
  | .call callee args => callee.ReadFrom ts ∧ ∀ arg ∈ args, arg.Sublist ts
  | .new className args => ts.HasName className ∧ ∀ arg ∈ args, arg.Sublist ts
  | .variable name => ts.HasVariable name
  | .raw => True

variable {ts rest : Run} {s : Shape}

/-! ### Closures -/

theorem hasVariable_of_mem_captures {c : Capture} (h : c ∈ captures ts) : ts.HasVariable c.name := by
  unfold captures at h
  obtain ⟨entry, hentry, heq⟩ := List.mem_filterMap.1 h
  simp only [Option.bind_eq_bind, Option.pure_def, Option.bind_eq_some_iff] at heq
  obtain ⟨t, ht, name, hname, heq⟩ := heq
  cases heq
  exact ⟨t, (Run.sublist_of_mem_splitTopLevel hentry).subset (List.mem_of_getLast? ht), hname⟩

theorem readFrom_uses? {isArrow : Bool} {uses : List Capture}
    (h : uses? isArrow ts = some (uses, rest)) :
    (∀ c ∈ uses, ts.HasVariable c.name) ∧ rest.Sublist ts := by
  unfold uses? at h
  split at h
  · obtain ⟨⟨inner, rest'⟩, hparens, heq⟩ := Option.map_eq_some_iff.1 h
    cases heq
    obtain ⟨hinner, hrest⟩ := Run.sublist_of_parens? hparens
    refine ⟨fun c hc => ?_, hrest.trans (List.drop_sublist 1 ts)⟩
    exact (hasVariable_of_mem_captures hc).mono (hinner.trans (List.drop_sublist 1 ts))
  · cases h
    exact ⟨List.forall_mem_nil _, List.Sublist.refl ts⟩

theorem readFrom_returnType? {type : Option String} (h : returnType? ts = some (type, rest)) :
    (∀ text ∈ type, ∃ r, r.Sublist ts ∧ text = Run.join r) ∧ rest.Sublist ts := by
  unfold returnType? at h
  split at h
  · have hdrop := List.drop_sublist 1 ts
    split at h
    · cases h
    · rename_i body hbody
      cases h
      refine ⟨fun text htext => ?_, (List.dropWhile_sublist _).trans hdrop⟩
      obtain rfl := Option.mem_some_iff.1 htext
      exact ⟨_, (List.takeWhile_sublist _).trans hdrop, rfl⟩
  · cases h
    exact ⟨fun _ h => absurd h (Option.not_mem_none _), List.Sublist.refl ts⟩

theorem sublist_of_closureStart? {isStatic isArrow : Bool}
    (h : closureStart? ts = some (isStatic, isArrow, rest)) : rest.Sublist ts := by
  cases ts with
  | nil => cases h
  | cons t ts =>
    simp only [closureStart?] at h
    split at h
    · cases h
    · rename_i keyword rest' heq
      have hrest : rest'.Sublist (t :: ts) := by
        have hcons : (keyword :: rest').Sublist (t :: ts) := by
          rw [← heq]
          split
          · exact List.sublist_cons_self t ts
          · exact List.Sublist.refl _
        exact (List.sublist_cons_self keyword rest').trans hcons
      split at h
      · cases h
        exact hrest
      · split at h
        · cases h
          exact hrest
        · cases h

theorem Declares.readFrom {isArrow : Bool} {head : ClosureHead} {body : Run}
    (h : Declares ts isArrow head body) : head.ReadFrom ts ∧ body.Sublist ts := by
  obtain @⟨isStatic, start, inner, afterParams, afterUses, _, uses, type, hstart, hparens, huses,
    htype⟩ := h
  have hsign : (if Run.startsWith "&" start then start.drop 1 else start).Sublist ts := by
    have hstart := sublist_of_closureStart? hstart
    split
    · exact (List.drop_sublist 1 start).trans hstart
    · exact hstart
  obtain ⟨hinner, hafter⟩ := Run.sublist_of_parens? hparens
  obtain ⟨hvariables, hbefore⟩ := readFrom_uses? huses
  obtain ⟨hjoin, hbody⟩ := readFrom_returnType? htype
  have hafter := hafter.trans hsign
  have hbefore := hbefore.trans hafter
  refine ⟨⟨⟨inner, hinner.trans hsign, rfl⟩, ?_, ?_⟩, hbody.trans hbefore⟩
  · exact fun c hc => (hvariables c hc).mono hafter
  · intro text htext
    obtain ⟨r, hr, rfl⟩ := hjoin text htext
    exact ⟨r, hr.trans hbefore, rfl⟩

/-! ### All forms -/

theorem sublist_of_arrayGroup? {inner : Run} (h : arrayGroup? ts = some (inner, rest)) :
    inner.Sublist ts := by
  unfold arrayGroup? at h
  split at h
  · exact (Run.sublist_of_group? h).1
  · split at h
    · exact (Run.sublist_of_parens? h).1.trans (List.drop_sublist 1 ts)
    · cases h

theorem Reads.readFrom (h : Reads ts s) : s.ReadFrom ts := by
  have cons_cons {a b : Placed} {us : Run} : us.Sublist (a :: b :: us) :=
    (List.sublist_cons_self _ _).trans (List.sublist_cons_self _ _)
  have name {t : Placed} (ht : t.kind = .name) : t.name? = some t.text := by
    rw [Token.name?, if_pos ht]
  cases h with
  | assign hname _ _ => exact ⟨⟨_, List.mem_cons_self, hname⟩, cons_cons⟩
  | arrow hhead _ => exact ⟨hhead.readFrom.1, (List.drop_sublist 1 _).trans hhead.readFrom.2⟩
  | block hhead _ hgroup =>
    exact ⟨hhead.readFrom.1, (Run.sublist_of_group? hgroup).1.trans hhead.readFrom.2⟩
  | array hgroup =>
    exact fun item hitem =>
      (Run.sublist_of_mem_splitTopLevel hitem).trans (sublist_of_arrayGroup? hgroup)
  | literal hliteral => exact hliteral
  | new _ hname => exact ⟨⟨_, by simp, hname⟩, List.forall_mem_nil _⟩
  | newWith _ hname hargs =>
    exact ⟨⟨_, by simp, hname⟩,
      fun arg harg => (Run.sublist_of_arguments? hargs arg harg).trans cons_cons⟩
  | function ht hargs =>
    exact ⟨⟨_, List.mem_cons_self, name ht⟩,
      fun arg harg => (Run.sublist_of_arguments? hargs arg harg).trans (List.sublist_cons_self _ _)⟩
  | static ht _ hname hargs =>
    exact ⟨⟨⟨_, List.mem_cons_self, name ht⟩, ⟨_, by simp, hname⟩⟩, fun arg harg =>
      ((Run.sublist_of_arguments? hargs arg harg).trans cons_cons).trans (List.sublist_cons_self _ _)⟩
  | method hreceiver _ hname hargs =>
    exact ⟨⟨⟨_, List.mem_cons_self, hreceiver⟩, ⟨_, by simp, hname⟩⟩, fun arg harg =>
      ((Run.sublist_of_arguments? hargs arg harg).trans cons_cons).trans (List.sublist_cons_self _ _)⟩
  | variableName hname => exact ⟨_, List.mem_cons_self, hname⟩
  | raw => trivial

/-- The form of a run comes from the run. -/
theorem readFrom_of (ts : Run) : (of ts).ReadFrom ts := (reads_of ts).readFrom

end Shape

/-! ## Statements -/

namespace Statement

theorem body_sublist (code : Run) : (body code).Sublist code := by
  unfold body
  split
  · exact List.dropLast_sublist code
  · exact List.Sublist.refl code

theorem sublist_of_classify_ret {code value : Run} (h : classify code = .ret (some value)) :
    value.Sublist code := by
  unfold classify at h
  split at h
  · cases h
  · split at h
    · simp only [Class.ret.injEq] at h
      split at h
      · cases h
      · cases h
        exact (List.drop_sublist 1 _).trans (body_sublist _)
    · split at h <;> cases h

theorem sublist_of_classify_expr {code value : Run} (h : classify code = .expr value) :
    value.Sublist code := by
  unfold classify at h
  split at h
  · cases h
  · split at h
    · cases h
    · split at h
      · cases h
      · cases h
        exact body_sublist _

end Statement

/-! ## What is read from code -/

/-- The property of code passes to its parts. -/
def Run.Hereditary (S : Run → Prop) : Prop := ∀ ⦃ts us : Run⦄, S ts → us.Sublist ts → S us

/-- The expression is read from code with the property. -/
def Expr.From (S : Run → Prop) (e : Expr) : Prop := ∃ source ts, S ts ∧ e = readExpr source ts

/-- The statement is read from code with the property. -/
def Stmt.From (S : Run → Prop) (s : Stmt) : Prop :=
  ∃ source ts, S (Run.code ts) ∧ s = readStatement source ts

theorem Expr.From.target {S : Run → Prop} {target : String} {value : Expr}
    (h : (Expr.assign target value).From S) : ∃ ts, S ts ∧ ts.HasVariable target := by
  obtain ⟨source, ts, hts, heq⟩ := h
  have hread := Shape.readFrom_of ts
  rw [readExpr_eq] at heq
  split at heq <;> cases heq
  rename_i run hshape
  rw [hshape] at hread
  exact ⟨ts, hts, hread.1⟩

section

variable {S : Run → Prop} (hS : Run.Hereditary S)
include hS

theorem Expr.From.arg {f : Callee} {args : List Expr} (h : (Expr.call f args).From S) :
    ∀ arg ∈ args, arg.From S := by
  obtain ⟨source, ts, hts, heq⟩ := h
  have hread := Shape.readFrom_of ts
  rw [readExpr_eq] at heq
  split at heq <;> cases heq
  rename_i runs hshape
  rw [hshape] at hread
  intro arg harg
  obtain ⟨run, hrun, rfl⟩ := List.mem_map.1 harg
  exact ⟨source, run, hS hts (hread.2 run hrun), rfl⟩

theorem Expr.From.assigned {target : String} {value : Expr} (h : (Expr.assign target value).From S) :
    value.From S := by
  obtain ⟨source, ts, hts, heq⟩ := h
  have hread := Shape.readFrom_of ts
  rw [readExpr_eq] at heq
  split at heq <;> cases heq
  rename_i run hshape
  rw [hshape] at hread
  exact ⟨source, run, hS hts hread.2, rfl⟩

theorem Stmt.From.expr {s : Stmt} (h : s.From S) {e : Expr} (he : s.form = .expr e) : e.From S := by
  obtain ⟨source, ts, hts, rfl⟩ := h
  rw [form_readStatement] at he
  split at he <;> cases he
  rename_i value hclass
  exact ⟨source, value, hS hts (Statement.sublist_of_classify_expr hclass), rfl⟩

theorem Stmt.From.ret {s : Stmt} (h : s.From S) {e : Expr} (he : s.form = .ret (some e)) :
    e.From S := by
  obtain ⟨source, ts, hts, rfl⟩ := h
  rw [form_readStatement] at he
  split at he <;> simp only [StmtForm.ret.injEq, reduceCtorEq] at he
  rename_i value hclass
  obtain ⟨run, rfl, rfl⟩ := Option.map_eq_some_iff.1 he
  exact ⟨source, run, hS hts (Statement.sublist_of_classify_ret hclass), rfl⟩

end

end CurryGen

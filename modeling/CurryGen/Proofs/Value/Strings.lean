import CurryGen.Proofs.Tree.Print
import CurryGen.Proofs.Value.RoundTrip

/-!
# The strings of a value

Evaluation makes no strings: those of a value are the literals of the code, and the empty string that
null is as a key. So the text of a value is made of plain parts and of its quoted strings.

* `Value.Over Q`: every string in the value satisfies `Q`.
* `Literals Q`: so does every string literal of the code.
* `over_readExpr`, `Bindings.over_run`: what such code is evaluated to, by induction on its length.
* `Value.woven_text`: the text of a value.
-/

namespace CurryGen

open Code

variable {P Q : String → Prop}

def Key.Over (Q : String → Prop) : Key → Prop
  | .int _ => True
  | .string s => Q s

/-- Every string in the value, also as a key, satisfies `Q`. -/
inductive Value.Over (Q : String → Prop) : Value → Prop
  | null : Over Q .null
  | bool (b : Bool) : Over Q (.bool b)
  | int (n : Int) : Over Q (.int n)
  | float (x : Number.Double) : Over Q (.float x)
  | string {s : String} : Q s → Over Q (.string s)
  | array {entries : List (Key × Value)} :
      (∀ e ∈ entries, e.1.Over Q) → (∀ e ∈ entries, Over Q e.2) → Over Q (.array entries)
  | foreign (type : String) : Over Q (.foreign type)

theorem Value.Over.entry {entries : List (Key × Value)} (h : (Value.array entries).Over Q) :
    ∀ e ∈ entries, e.1.Over Q ∧ e.2.Over Q := by
  cases h with
  | array hkeys hvalues => exact fun e he => ⟨hkeys e he, hvalues e he⟩

namespace Value

theorem eq_map_of_valuesFrom? {index : Int} {entries : List (Key × Value)} {values : List Value}
    (h : valuesFrom? index entries = some values) : values = entries.map (·.2) := by
  induction entries generalizing index values with
  | nil =>
    cases h
    rfl
  | cons e entries ih =>
    rw [valuesFrom?] at h
    split at h
    · obtain ⟨rest, hrest, rfl⟩ := Option.map_eq_some_iff.1 h
      rw [List.map_cons, ih hrest]
    · cases h

theorem exists_of_asList? {v : Value} {values : List Value} (h : v.asList? = some values) :
    ∃ entries, v = .array entries ∧ values = entries.map (·.2) := by
  unfold asList? at h
  split at h
  · rename_i entries
    exact ⟨entries, rfl, eq_map_of_valuesFrom? h⟩
  · cases h

theorem Over.of_mem_asList {v : Value} (h : v.Over Q) {values : List Value}
    (hlist : v.asList? = some values) : ∀ u ∈ values, u.Over Q := by
  obtain ⟨entries, rfl, rfl⟩ := exists_of_asList? hlist
  intro u hu
  obtain ⟨e, he, rfl⟩ := List.mem_map.1 hu
  exact (h.entry e he).2

theorem arePrintable_iff {entries : List (Key × Value)} :
    arePrintable entries = true ↔ ∀ e ∈ entries, e.2.isPrintable = true := by
  induction entries with
  | nil => simp [arePrintable]
  | cons e entries ih => rw [arePrintable, Bool.and_eq_true, ih, List.forall_mem_cons]

theorem isPrintable_of_mem_asList {v : Value} (h : v.isPrintable = true) {values : List Value}
    (hlist : v.asList? = some values) : ∀ u ∈ values, u.isPrintable = true := by
  obtain ⟨entries, rfl, rfl⟩ := exists_of_asList? hlist
  rw [isPrintable, arePrintable_iff] at h
  intro u hu
  obtain ⟨e, he, rfl⟩ := List.mem_map.1 hu
  exact h e he

end Value

/-! ## Arrays under construction -/

def ArrayBuilder.Over (Q : String → Prop) (b : ArrayBuilder) : Prop :=
  ∀ e ∈ b.entries, e.1.Over Q ∧ e.2.Over Q

namespace ArrayBuilder

variable {b : ArrayBuilder} {key : Key} {value : Value}

theorem over_assign {entries : List (Key × Value)} (hkey : key.Over Q) (hvalue : value.Over Q)
    (h : ∀ e ∈ entries, e.1.Over Q ∧ e.2.Over Q) :
    ∀ e ∈ assign key value entries, e.1.Over Q ∧ e.2.Over Q := by
  induction entries with
  | nil => exact List.forall_mem_singleton.2 ⟨hkey, hvalue⟩
  | cons entry entries ih =>
    rw [List.forall_mem_cons] at h
    rw [assign]
    split
    · exact List.forall_mem_cons.2 ⟨⟨hkey, hvalue⟩, h.2⟩
    · exact List.forall_mem_cons.2 ⟨h.1, ih h.2⟩

namespace Over

theorem write (h : b.Over Q) (hkey : key.Over Q) (hvalue : value.Over Q) :
    (b.write key value).Over Q :=
  over_assign hkey hvalue h

theorem append (h : b.Over Q) (hvalue : value.Over Q) : (b.append value).Over Q := by
  unfold ArrayBuilder.append
  split
  · exact h.write trivial hvalue
  · exact h

theorem spread {entries : List (Key × Value)} (h : b.Over Q)
    (hentries : ∀ e ∈ entries, e.1.Over Q ∧ e.2.Over Q) : (b.spread entries).Over Q := by
  unfold ArrayBuilder.spread
  induction entries generalizing b with
  | nil => exact h
  | cons e entries ih =>
    obtain ⟨key, value⟩ := e
    rw [List.forall_mem_cons] at hentries
    rw [List.foldl_cons]
    refine ih ?_ hentries.2
    cases key with
    | int n => exact h.append hentries.1.2
    | string s => exact h.write hentries.1.1 hentries.1.2

theorem build (h : b.Over Q) : b.build.Over Q := by
  unfold ArrayBuilder.build
  split
  · exact .foreign _
  · exact .array (fun e he => (h e he).1) fun e he => (h e he).2

end Over

end ArrayBuilder

/-- Null is the empty string as a key. -/
theorem Value.Over.key {v : Value} {key : Key} (h : v.Over Q) (hempty : Q "")
    (hkey : v.key? = some key) : key.Over Q := by
  cases h with
  | null => cases hkey; exact hempty
  | bool b => cases hkey; trivial
  | int n => cases hkey; trivial
  | float x => cases hkey; trivial
  | string hs =>
    simp only [Value.key?] at hkey
    split at hkey
    · cases hkey; trivial
    · cases hkey; exact hs
  | array hkeys hvalues => cases hkey
  | foreign type => cases hkey

/-! ## Evaluation -/

/-- The string literals of the code satisfy `Q`. -/
def Literals (Q : String → Prop) (ts : Run) : Prop :=
  ∀ t ∈ ts, t.kind = .string → ∀ cs ∈ Literal.unquote? t.text.toList, Q (String.ofList cs)

theorem Literals.hereditary : Run.Hereditary (Literals Q) :=
  fun _ _ h hus t ht => h t (hus.subset ht)

theorem Literals.over {ts : Run} {value : Literal} {text : String} (h : Literals Q ts)
    (hread : Literal.ofRun? ts = some (value, text)) : value.toValue.Over Q := by
  rcases Literal.exists_of_ofRun? hread with ⟨t, rfl, hvalue, -⟩ | ⟨sign, t, rfl, -, hvalue, -⟩
  · unfold Literal.ofToken? at hvalue
    split at hvalue
    · obtain ⟨n, -, rfl⟩ := Option.map_eq_some_iff.1 hvalue
      exact .int n
    · cases hvalue
      exact .float _
    · rename_i hkind
      obtain ⟨cs, hcs, rfl⟩ := Option.map_eq_some_iff.1 hvalue
      exact .string (h t List.mem_cons_self hkind cs hcs)
    · split at hvalue <;> cases hvalue
      · exact .null
      · exact .bool true
      · exact .bool false
    · cases hvalue
  · unfold Literal.ofNegated? at hvalue
    split at hvalue
    · obtain ⟨n, -, rfl⟩ := Option.map_eq_some_iff.1 hvalue
      exact .int (-n)
    · cases hvalue
      exact .float _
    · cases hvalue

section

variable {env : Bindings} {source : List Char} {ts : Run}

theorem over_evalItems {items : List ArrayItem} {b : ArrayBuilder} (hb : b.Over Q)
    (h : ∀ item ∈ items, ∀ b : ArrayBuilder, b.Over Q → (item.addTo env b).Over Q) :
    (evalItems env b items).Over Q := by
  induction items generalizing b with
  | nil => rwa [evalItems]
  | cons item items ih =>
    rw [List.forall_mem_cons] at h
    rw [evalItems]
    exact ih (h.1 b hb) h.2

theorem over_readItem {n : Nat} (hempty : Q "") (h : Literals Q ts) (hn : ts.length < n)
    (ih : ∀ us : Run, us.length < n → Literals Q us → ((readExpr source us).eval env).Over Q)
    {b : ArrayBuilder} (hb : b.Over Q) : ((readItem source ts).addTo env b).Over Q := by
  rw [readItem]
  split
  · have hdrop : (ts.drop 1).length < n := by
      rw [List.length_drop]
      omega
    have hvalue := ih _ hdrop (Literals.hereditary h (List.drop_sublist 1 ts))
    rw [ArrayItem.addTo]
    split
    · rename_i entries hentries
      rw [hentries] at hvalue
      exact hb.spread hvalue.entry
    · exact hb.append (.foreign _)
  · split
    · rename_i key value hbreak
      split
      · rw [ArrayItem.addTo]
        exact hb.append (ih ts hn h)
      · have hlength := Run.length_of_breakTopLevel? hbreak
        obtain ⟨hkey, hvalue⟩ := Run.sublist_of_breakFrom hbreak
        have hkey := ih key (by omega) (Literals.hereditary h hkey)
        have hvalue := ih value (by omega) (Literals.hereditary h hvalue)
        rw [ArrayItem.addTo]
        split
        · rename_i k hk
          exact hb.write (hkey.key hempty hk) hvalue
        · exact hb.append (.foreign _)
    · rw [ArrayItem.addTo]
      exact hb.append (ih ts hn h)

/-- The strings of a value are literals of its code or come from the variables. -/
theorem over_readExpr (hempty : Q "") (henv : ∀ binding ∈ env, binding.2.Over Q) (h : Literals Q ts) :
    ((readExpr source ts).eval env).Over Q := by
  induction hn : ts.length using Nat.strongRecOn generalizing ts with
  | ind n ih =>
    have ih (us : Run) (hlt : us.length < n) (hus : Literals Q us) := ih us.length hlt hus rfl
    have hread := Shape.readFrom_of ts
    have hlt {p : Run} (hp : p ∈ (Shape.of ts).parts) : p.length < n := by
      rw [← hn]
      exact Shape.length_lt_of_mem_parts hp
    rw [readExpr_eq]
    cases hshape : Shape.of ts with
    | assign target value =>
      rw [hshape] at hread hlt
      rw [Expr.eval]
      exact ih value (hlt List.mem_cons_self) (Literals.hereditary h hread.2)
    | array items =>
      rw [hshape] at hread hlt
      rw [Expr.eval]
      refine (over_evalItems (b := {}) (List.forall_mem_nil _) fun item hitem b hb => ?_).build
      obtain ⟨run, hrun, rfl⟩ := List.mem_map.1 hitem
      exact over_readItem hempty (Literals.hereditary h (hread run hrun)) (hlt hrun) ih hb
    | literal value text =>
      rw [hshape] at hread
      rw [Expr.eval]
      exact h.over hread
    | «variable» name =>
      rw [Expr.eval]
      cases hlookup : env.lookup name with
      | none => exact .foreign _
      | some value =>
        obtain ⟨before, after, rfl, -⟩ := List.lookup_eq_some_iff.1 hlookup
        exact henv (name, value) (by simp)
    | arrow head value => rw [Expr.eval]; exact .foreign _
    | block head body => rw [Expr.eval]; exact .foreign _
    | new className args => rw [Expr.eval]; exact .foreign _
    | call f args => rw [Expr.eval]; exact .foreign _
    | raw => rw [Expr.eval]; exact .foreign _

theorem Expr.From.over {e : Expr} (hempty : Q "") (henv : ∀ binding ∈ env, binding.2.Over Q)
    (h : e.From (Literals Q)) : (e.eval env).Over Q := by
  obtain ⟨source, ts, hts, rfl⟩ := h
  exact over_readExpr hempty henv hts

end

namespace Bindings

/-- The strings of the variables and of the returned value. -/
def Over (Q : String → Prop) (state : Bindings × Option Value) : Prop :=
  (∀ binding ∈ state.1, binding.2.Over Q) ∧ ∀ value ∈ state.2, value.Over Q

theorem over_step (hempty : Q "") {state : Bindings × Option Value} (hstate : Over Q state) {s : Stmt}
    (hs : s.From (Literals Q)) : Over Q (step state s) := by
  obtain ⟨env, returned⟩ := state
  unfold step
  simp only
  split
  · rename_i target value hform
    have hvalue := ((hs.expr Literals.hereditary hform).assigned Literals.hereditary).over hempty
      hstate.1
    exact ⟨List.forall_mem_cons.2 ⟨hvalue, hstate.1⟩, hstate.2⟩
  · rename_i value hform
    refine ⟨hstate.1, fun v hv => ?_⟩
    obtain rfl := Option.mem_some_iff.1 hv
    exact (hs.ret Literals.hereditary hform).over hempty hstate.1
  · exact hstate

/-- The strings of what a method returns are literals of its statements. -/
theorem over_run (hempty : Q "") {statements : List Stmt}
    (h : ∀ s ∈ statements, s.From (Literals Q)) :
    ∀ value ∈ (run [] statements).2, value.Over Q := by
  have hrun (state : Bindings × Option Value) (hstate : Over Q state) :
      Over Q (statements.foldl step state) := by
    induction statements generalizing state with
    | nil => exact hstate
    | cons s statements ih =>
      rw [List.forall_mem_cons] at h
      rw [List.foldl_cons]
      exact ih h.2 _ (over_step hempty hstate h.1)
  refine (hrun ([], none) ⟨List.forall_mem_nil _, fun _ h => ?_⟩).2
  exact absurd h (Option.not_mem_none _)

end Bindings

/-! ## Texts -/

/-- A text without stars ends no comment. -/
theorem Code.IsCommentLine.of_notMem {s : String} (hfeed : '\n' ∉ s.toList) (hstar : '*' ∉ s.toList) :
    IsCommentLine s :=
  ⟨hfeed, fun hin => hstar (hin.subset List.mem_cons_self)⟩

namespace Number

/-- A character of a written number. -/
def isWritten (c : Char) : Bool := c.isDigit || "-.NANINF".toList.contains c

theorem isCommentLine_of_all_isWritten {s : String} (h : s.toList.all isWritten = true) :
    IsCommentLine s := by
  have hnot {c : Char} (hc : isWritten c = false) : c ∉ s.toList := fun hmem => by
    have hwritten := List.all_eq_true.1 h c hmem
    rw [hc] at hwritten
    cases hwritten
  exact .of_notMem (hnot (by decide)) (hnot (by decide))

theorem all_isWritten_toString_nat (n : Nat) : (toString n).toList.all isWritten = true := by
  have htext : (toString n).toList = Nat.toDigits 10 n := Nat.toList_repr
  rw [htext, List.all_eq_true]
  intro c hc
  have hdigit : c.isDigit = true := Nat.isDigit_of_mem_toDigits (b := 10) (by decide) (by decide) hc
  simp [isWritten, hdigit]

theorem isCommentLine_toString (n : Int) : IsCommentLine (toString n) := by
  refine isCommentLine_of_all_isWritten ?_
  rw [toList_toString]
  split
  · rw [List.all_cons, all_isWritten_toString_nat]
    decide
  · exact all_isWritten_toString_nat _

theorem Double.all_isWritten_positional (d : Decimal) : d.positional.toList.all isWritten = true := by
  have hdigits := all_isWritten_toString_nat d.digits
  have hzeros (n : Nat) : (List.replicate n '0').all isWritten = true :=
    List.all_eq_true.2 fun c hc => by rw [List.eq_of_mem_replicate hc]; decide
  unfold Decimal.positional
  extract_lets digits places padded
  split
  · rw [String.toList_append, String.toList_ofList, List.all_append, hdigits, hzeros]
    rfl
  · have hpadded : padded.all isWritten = true := by
      rw [List.all_append, hzeros, hdigits]
      rfl
    have hpart {cs : List Char} (hcs : cs.Sublist padded) :
        (String.ofList cs).toList.all isWritten = true := by
      rw [String.toList_ofList, List.all_eq_true]
      exact fun c hc => List.all_eq_true.1 hpadded c (hcs.subset hc)
    rw [String.toList_append, String.toList_append, List.all_append, List.all_append,
      hpart (List.take_sublist _ _), hpart (List.drop_sublist _ _)]
    decide

theorem Double.all_isWritten_finiteText (m : Nat) (q : Int) :
    (finiteText m q).toList.all isWritten = true := by
  unfold finiteText
  split
  · decide
  · simp only
    split
    · rw [String.toList_append, List.all_append, all_isWritten_positional]
      decide
    · exact all_isWritten_positional _

theorem Double.isCommentLine_text (x : Double) : IsCommentLine x.text := by
  refine isCommentLine_of_all_isWritten ?_
  unfold text
  split
  · decide
  · split <;> decide
  · rw [String.toList_append, List.all_append, all_isWritten_finiteText, Bool.and_true]
    split <;> decide

end Number

namespace Value

theorem woven_key {key : Key} (hQ : ∀ s, Q s → Woven P (quote s)) (h : key.Over Q) :
    Woven P key.text := by
  cases key with
  | int n => exact .plain (Number.isCommentLine_toString n)
  | string s => exact hQ s h

/-- The text of a value is made of its quoted strings. -/
theorem woven_text (hQ : ∀ s, Q s → Woven P (quote s)) {v : Value} (h : v.Over Q)
    (hprintable : v.isPrintable = true) : Woven P v.text := by
  induction v using inductionOn with
  | null => exact .plain (by decide)
  | bool b =>
    rw [text]
    cases b <;> exact .plain (by decide)
  | int n => exact .plain (Number.isCommentLine_toString n)
  | float x => exact .plain x.isCommentLine_text
  | string s =>
    cases h with
    | string hs => exact hQ s hs
  | foreign type => cases hprintable
  | array entries ih =>
    rw [isPrintable, arePrintable_iff] at hprintable
    rw [text, entryTexts_eq_map]
    refine ((Woven.intercalate (by decide) fun t ht => ?_).after_joint (by decide)).before_joint
      (by decide)
    obtain ⟨e, he, rfl⟩ := List.mem_map.1 ht
    obtain ⟨hkey, hvalue⟩ := h.entry e he
    have hvalue := ih e he hvalue (hprintable e he)
    split
    · exact (woven_key hQ hkey).joint (by decide) hvalue
    · exact hvalue

end Value

end CurryGen

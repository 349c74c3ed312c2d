import CurryGen.Proofs.Token.Separator
import CurryGen.Proofs.Value.Scalar

/-!
# Values read back

The text of a value is PHP code, and evaluating that code gives the value again. The text goes
through three readers, and each part of the proof is about one of them.

* `Value.covers_text`: the text is made of the tokens `Value.tokens`.
* `Value.piece_tokens`: no separator stands outside the brackets of a value, so an array is cut into
  its entries and an entry into key and value.
* `Value.evalItems_keyed`, `Value.evalItems_list`: entries with distinct keys are added in order.
* `Value.evalsTo`, `Value.run_return_text`: what the tokens and the text are evaluated to.
-/

namespace CurryGen

open Scan Token Run

namespace Value

/-- Induction on a value; that of an array is on the values of its entries. -/
theorem inductionOn {P : Value → Prop} (null : P null) (bool : ∀ b, P (bool b))
    (int : ∀ n, P (int n)) (float : ∀ x, P (float x)) (string : ∀ s, P (string s))
    (foreign : ∀ type, P (foreign type))
    (array : ∀ entries, (∀ e ∈ entries, P e.2) → P (array entries)) (v : Value) : P v :=
  match v with
  | .null => null
  | .bool b => bool b
  | .int n => int n
  | .float x => float x
  | .string s => string s
  | .foreign type => foreign type
  | .array entries =>
    array entries fun e _ => inductionOn null bool int float string foreign array e.2
termination_by sizeOf v
decreasing_by
  rename_i hmem
  have hentry := List.sizeOf_lt_of_mem hmem
  obtain ⟨key, value⟩ := e
  simp only [Prod.mk.sizeOf_spec, Value.array.sizeOf_spec] at hentry ⊢
  omega

end Value

/-! ## Literal values -/

/-- A key that an array can have: an integer with a literal, or a string that is not the text of
one. -/
def Key.IsLiteral : Key → Prop
  | .int n => Number.minInt < n ∧ n ≤ Number.maxInt
  | .string s => ∀ n : Int, Number.minInt ≤ n → n ≤ Number.maxInt → s ≠ toString n

theorem Key.isLiteral_string_iff {s : String} :
    (Key.string s).IsLiteral ↔ Number.ofCanonical? s = none := by
  rw [Option.eq_none_iff_forall_ne_some]
  constructor
  · intro h n hn
    obtain ⟨hmin, hmax, htext⟩ := Number.ofCanonical?_eq_some_iff.1 hn
    exact h n hmin hmax htext
  · intro h n hmin hmax htext
    exact h n (Number.ofCanonical?_eq_some_iff.2 ⟨hmin, hmax, htext⟩)

namespace Value

mutual

/-- A value that a literal without floats denotes: integers have a literal, and the keys of an array
are distinct. -/
def IsLiteral : Value → Prop
  | null | bool _ | string _ => True
  | int n => Number.minInt < n ∧ n ≤ Number.maxInt
  | array entries => (entries.map (·.1)).Nodup ∧ AreLiteral entries
  | float _ | foreign _ => False

def AreLiteral : List (Key × Value) → Prop
  | [] => True
  | (key, value) :: entries => key.IsLiteral ∧ value.IsLiteral ∧ AreLiteral entries

end

theorem areLiteral_iff {entries : List (Key × Value)} :
    AreLiteral entries ↔ ∀ e ∈ entries, e.1.IsLiteral ∧ e.2.IsLiteral := by
  induction entries with
  | nil => simp [AreLiteral]
  | cons e entries ih =>
    rw [List.forall_mem_cons, ← ih, AreLiteral]
    exact and_assoc.symm

end Value

/-! ## Tokens -/

namespace Key

def tokens : Key → List Token
  | .int n => Number.tokens n
  | .string s => [⟨.string, quote s⟩]

end Key

namespace Value

mutual

/-- The tokens of a value that has a literal. -/
def tokens : Value → List Token
  | null => [⟨.name, "null"⟩]
  | bool b => [⟨.name, if b then "true" else "false"⟩]
  | int n => Number.tokens n
  | string s => [⟨.string, quote s⟩]
  | array entries =>
    .symbol "[" :: ([.symbol ","].intercalate
      (entryTokens (valuesFrom? 0 entries).isNone entries) ++ [.symbol "]"])
  | float _ | foreign _ => []

/-- The tokens of array entries, with their keys if `keyed`. -/
def entryTokens (keyed : Bool) : List (Key × Value) → List (List Token)
  | [] => []
  | (key, value) :: entries =>
    (if keyed then key.tokens ++ .symbol "=>" :: value.tokens else value.tokens) ::
      entryTokens keyed entries

end

theorem entryTokens_eq_map (keyed : Bool) (entries : List (Key × Value)) :
    entryTokens keyed entries = entries.map fun e =>
      if keyed then e.1.tokens ++ .symbol "=>" :: e.2.tokens else e.2.tokens := by
  induction entries with
  | nil => rfl
  | cons e entries ih => rw [entryTokens, ih, List.map_cons]

theorem entryTexts_eq_map (keyed : Bool) (entries : List (Key × Value)) :
    entryTexts keyed entries = entries.map fun e =>
      if keyed then e.1.text ++ " => " ++ e.2.text else e.2.text := by
  induction entries with
  | nil => rfl
  | cons e entries ih => rw [entryTexts, ih, List.map_cons]

end Value

theorem Key.covers_text (key : Key) : Covers key.text.toList key.tokens := by
  cases key with
  | int n => exact Number.covers_toString n
  | string s => exact (stands_quote s).covers

namespace Value

theorem covers_name {s : String} (h : isIdentifier s = true) : Covers s.toList [⟨.name, s⟩] :=
  (stands_identifier h).covers

theorem covers_entry {e : Key × Value} (h : Covers e.2.text.toList e.2.tokens) (keyed : Bool) :
    Covers (if keyed then e.1.text ++ " => " ++ e.2.text else e.2.text).toList
      (if keyed then e.1.tokens ++ .symbol "=>" :: e.2.tokens else e.2.tokens) := by
  cases keyed with
  | false => exact h
  | true =>
    have harrow : Stands (.symbol "=>") [] := ⟨'=', ['>'], rfl, by decide⟩
    have htext : (e.1.text ++ " => " ++ e.2.text).toList =
        e.1.text.toList ++ ' ' :: ("=>".toList ++ ' ' :: e.2.text.toList) := by simp
    simp only [if_true]
    rw [htext]
    exact e.1.covers_text.append_space (harrow.covers.append_space h)

theorem toList_text_array (entries : List (Key × Value)) :
    (array entries).text.toList = '[' :: ([',', ' '].intercalate
      ((entryTexts (valuesFrom? 0 entries).isNone entries).map String.toList) ++ [']']) := by
  rw [text, String.toList_append, String.toList_append, String.toList_intercalate]
  rfl

/-- The text of a literal value is made of its tokens. -/
theorem covers_text {v : Value} (h : v.IsLiteral) : Covers v.text.toList v.tokens := by
  induction v using inductionOn with
  | null => exact covers_name (by decide)
  | bool b => cases b <;> exact covers_name (by decide)
  | int n => exact Number.covers_toString n
  | float x => exact h.elim
  | string s => exact (stands_quote s).covers
  | foreign type => exact h.elim
  | array entries ih =>
    have hentries := areLiteral_iff.1 h.2
    have hinner := Covers.intercalate
      (fun e he => covers_entry (ih e he (hentries e he).2) (valuesFrom? 0 entries).isNone)
    have hall := (stands_bracket _).covers_append
      (hinner.append (d := ']') (by decide) (stands_closeBracket []).covers)
    rw [toList_text_array, tokens, entryTokens_eq_map, entryTexts_eq_map, List.map_map]
    exact hall

/-! ## Pieces -/

section
variable {text : String} (hminus : text ≠ "-")
include hminus

theorem piece_number (n : Int) : Piece text (Number.tokens n) := by
  have hnat : Piece text [⟨.int, toString n.natAbs⟩] := .singleton rfl rfl rfl
  rw [Number.tokens]
  split
  · refine Piece.append (a := [.symbol "-"]) (.singleton rfl rfl ?_) hnat
    simpa [isSymbol, Token.symbol] using hminus.symm
  · exact hnat

theorem piece_key (key : Key) : Piece text key.tokens := by
  cases key with
  | int n => exact piece_number hminus n
  | string s => exact .singleton rfl rfl rfl

end

theorem balanced_entry {a b : List Token} (ha : balanced 0 a = true) (hb : balanced 0 b = true)
    (keyed : Bool) : balanced 0 (if keyed then a ++ .symbol "=>" :: b else b) = true := by
  cases keyed with
  | false => exact hb
  | true =>
    have happend := balanced_append ha 0 (b := .symbol "=>" :: b)
    exact happend.trans hb

/-- No separator stands outside the brackets of a value. -/
theorem piece_tokens {text : String} (hminus : text ≠ "-") (v : Value) : Piece text v.tokens := by
  induction v using inductionOn with
  | null => exact .singleton rfl rfl rfl
  | bool b => exact .singleton rfl rfl rfl
  | int n => exact piece_number hminus n
  | float x => exact ⟨rfl, rfl⟩
  | string s => exact .singleton rfl rfl rfl
  | foreign type => exact ⟨rfl, rfl⟩
  | array entries ih =>
    rw [tokens, entryTokens_eq_map]
    refine Piece.group rfl rfl (balanced_intercalate rfl rfl ?_)
    rw [List.forall_mem_map]
    exact fun e he => balanced_entry (piece_key hminus e.1).balanced (ih e he).balanced _

theorem piece_entry (e : Key × Value) (keyed : Bool) :
    Piece "," (if keyed then e.1.tokens ++ .symbol "=>" :: e.2.tokens else e.2.tokens) := by
  have hvalue : Piece "," e.2.tokens := piece_tokens (by decide) e.2
  cases keyed with
  | false => exact hvalue
  | true =>
    have harrow : Piece "," [.symbol "=>"] := .singleton rfl rfl (by decide)
    exact (piece_key (by decide) e.1).append (harrow.append hvalue)

theorem tokens_ne_nil {v : Value} (h : v.IsLiteral) : v.tokens ≠ [] := by
  cases v with
  | int n => rw [tokens, Number.tokens]; split <;> simp
  | float x => exact h.elim
  | foreign type => exact h.elim
  | _ => simp [tokens]

end Value

/-! ## Scalars -/

section
variable {source : List Char} {env : Bindings}

theorem readExpr_literal {ts : Run} {value : Literal} {text : String}
    (hassign : Shape.assignment? ts = none) (hclosure : Shape.closure? ts = none)
    (harray : Shape.array? ts = none) (h : Literal.ofRun? ts = some (value, text)) :
    readExpr source ts = .literal value text := by
  have hshape : Shape.of ts = .literal value text := by
    rw [Shape.of, hassign, hclosure, harray, Shape.literal?, h]
    rfl
  rw [readExpr_eq, hshape]

theorem eval_null {ts : Run} (hts : ts.tokens = Value.null.tokens) :
    (readExpr source ts).eval env = .null := by
  obtain ⟨i, rest, rfl, hrest⟩ := exists_cons_of_tokens hts
  obtain rfl := List.map_eq_nil_iff.1 hrest
  have hliteral : readExpr source [⟨⟨.name, "null"⟩, i⟩] = .literal .null "null" :=
    readExpr_literal rfl (by cbv) (by cbv) (by cbv)
  rw [hliteral]
  rfl

theorem eval_bool {ts : Run} {value : Bool} (hts : ts.tokens = (Value.bool value).tokens) :
    (readExpr source ts).eval env = .bool value := by
  obtain ⟨i, rest, rfl, hrest⟩ := exists_cons_of_tokens hts
  obtain rfl := List.map_eq_nil_iff.1 hrest
  have hliteral : readExpr source [⟨⟨.name, if value then "true" else "false"⟩, i⟩] =
      .literal (.bool value) (if value then "true" else "false") := by
    cases value <;> exact readExpr_literal rfl (by cbv) (by cbv) (by cbv)
  rw [hliteral]
  rfl

theorem eval_int {ts : Run} {n : Int} (hmin : Number.minInt < n) (hmax : n ≤ Number.maxInt)
    (hts : ts.tokens = Number.tokens n) : (readExpr source ts).eval env = .int n := by
  rw [Number.tokens] at hts
  split at hts
  · rename_i hneg
    obtain ⟨i, ts, rfl, hrest⟩ := exists_cons_of_tokens hts
    obtain ⟨j, ts, rfl, hrest'⟩ := exists_cons_of_tokens hrest
    obtain rfl := List.map_eq_nil_iff.1 hrest'
    have habs : (n.natAbs : Int) = -n := Int.ofNat_natAbs_of_nonpos (Int.le_of_lt hneg)
    have hle : -n ≤ Number.maxInt := by
      unfold Number.minInt at hmin
      unfold Number.maxInt
      omega
    rw [readExpr_negated]
    simp only [Literal.ofNegated?, Number.ofLiteral?_toString, habs, if_pos hle, Option.map_some,
      Int.neg_neg]
    rfl
  · rename_i hpos
    have habs : (n.natAbs : Int) = n := Int.natAbs_of_nonneg (Int.not_lt.1 hpos)
    have hcount : (readExpr source ts).IsCount n.natAbs := readExpr_count hts
    rcases hcount with hliteral | ⟨hlarge, -⟩
    · rw [hliteral, habs]
      rfl
    · omega

theorem eval_string {ts : Run} {s : String} (hts : ts.tokens = [⟨.string, quote s⟩]) :
    (readExpr source ts).eval env = .string s := by
  obtain ⟨i, rest, rfl, hrest⟩ := exists_cons_of_tokens hts
  obtain rfl := List.map_eq_nil_iff.1 hrest
  rw [readExpr_single (.inr rfl)]
  simp only [Literal.ofToken?, unquote?_quote, Option.map_some, String.ofList_toList]
  rfl

theorem eval_key {ts : Run} {key : Key} (h : key.IsLiteral) (hts : ts.tokens = key.tokens) :
    ((readExpr source ts).eval env).key? = some key := by
  cases key with
  | int n =>
    rw [eval_int h.1 h.2 hts]
    rfl
  | string s =>
    rw [eval_string hts, Value.key?, Key.isLiteral_string_iff.1 h]

end

/-! ## Arrays -/

/-- Balanced tokens between brackets are an array. -/
theorem Shape.of_array {inner : Run} (h : balanced 0 inner.tokens = true) (i j : Nat) :
    Shape.of (⟨.symbol "[", i⟩ :: (inner ++ [⟨.symbol "]", j⟩])) =
      .array (inner.splitTopLevel ",") := by
  have hassign : assignment? (⟨.symbol "[", i⟩ :: (inner ++ [⟨.symbol "]", j⟩])) = none := by
    unfold assignment?
    split
    · rename_i htarget
      obtain ⟨rfl, -⟩ := List.cons.inj htarget
      split <;> rfl
    · rfl
  have hclosure : closure? (⟨.symbol "[", i⟩ :: (inner ++ [⟨.symbol "]", j⟩])) = none := rfl
  have hgroup : Run.group? (⟨.symbol "[", i⟩ :: (inner ++ [⟨.symbol "]", j⟩])) = some (inner, []) :=
    group?_eq_some_iff.2 ⟨_, _, rfl, rfl, rfl, h⟩
  have hstart : Run.startsWith "[" (⟨.symbol "[", i⟩ :: (inner ++ [⟨.symbol "]", j⟩])) = true := rfl
  have harray : array? (⟨.symbol "[", i⟩ :: (inner ++ [⟨.symbol "]", j⟩])) =
      some (.array (inner.splitTopLevel ",")) := by
    rw [array?, arrayGroup?, if_pos hstart, hgroup]
  rw [Shape.of, hassign, hclosure, harray]
  rfl

namespace ArrayBuilder

theorem assign_of_notMem {key : Key} {value : Value} {entries : List (Key × Value)}
    (h : key ∉ entries.map (·.1)) : assign key value entries = entries ++ [(key, value)] := by
  induction entries with
  | nil => rfl
  | cons e entries ih =>
    rw [List.map_cons, List.mem_cons, not_or] at h
    rw [assign, if_neg (Ne.symm h.1), ih h.2, List.cons_append]

end ArrayBuilder

theorem Run.startsWith_eq (text : String) (ts : Run) :
    ts.startsWith text = ts.tokens.head?.any (·.isSymbol text) := by
  cases ts <;> rfl

namespace Value

section
variable {source : List Char} {env : Bindings}

theorem not_startsWith_ellipsis (v : Value) (ts : Run) (hts : ts.tokens = v.tokens) :
    ts.startsWith "..." = false := by
  rw [startsWith_eq, hts]
  cases v with
  | int n => rw [tokens, Number.tokens]; split <;> rfl
  | _ => rfl

theorem readItem_value {ts : Run} {v : Value} (hts : ts.tokens = v.tokens) :
    readItem source ts = .value (readExpr source ts) := by
  have harrow : ts.breakTopLevel? "=>" = none :=
    breakTopLevel?_of_uncut (hts ▸ (piece_tokens (by decide) v).uncut)
  rw [readItem, not_startsWith_ellipsis v ts hts]
  simp only [Bool.false_eq_true, if_false]
  split
  · rename_i hbreak
    rw [harrow] at hbreak
    cases hbreak
  · rfl

theorem startsArrow_key {ts : Run} {key : Key} (hts : ts.tokens = key.tokens) :
    startsArrow ts = false := by
  have hkind : ∀ t ∈ ts.head?, t.kind ≠ .name := by
    intro t ht
    have hhead : key.tokens.head? = some t.toToken := by
      rw [← hts, Run.tokens, List.head?_map, ht]
      rfl
    cases key with
    | int n =>
      rw [Key.tokens, Number.tokens] at hhead
      split at hhead <;>
      · rw [← Option.some.inj hhead]
        intro h
        cases h
    | string s =>
      rw [← Option.some.inj hhead]
      intro h
      cases h
  cases ts with
  | nil => rfl
  | cons t ts =>
    have ht := hkind t rfl
    simp [startsArrow, isKeyword, isKeywordIn, ht]

theorem readItem_entry {a b : Run} {key : Key} (ha : a.tokens = key.tokens) (i : Nat) :
    readItem source (a ++ ⟨.symbol "=>", i⟩ :: b) =
      .entry (readExpr source a) (readExpr source b) := by
  have hbreak : (a ++ ⟨.symbol "=>", i⟩ :: b).breakTopLevel? "=>" = some (a, b) :=
    breakTopLevel?_append (ha ▸ piece_key (by decide) key) rfl b
  have hspread : (a ++ ⟨.symbol "=>", i⟩ :: b).startsWith "..." = false := by
    rw [startsWith_eq, tokens_append, ha]
    cases key with
    | int n => rw [Key.tokens, Number.tokens]; split <;> rfl
    | string s => rfl
  have harrow : startsArrow a = false := startsArrow_key ha
  rw [readItem, hspread]
  simp only [Bool.false_eq_true, if_false]
  split
  · rename_i hbreak'
    rw [hbreak] at hbreak'
    cases hbreak'
    rw [harrow]
    rfl
  · rename_i hbreak'
    rw [hbreak] at hbreak'
    cases hbreak'

/-- The tokens of the value are evaluated to it. -/
def EvalsTo (source : List Char) (env : Bindings) (v : Value) : Prop :=
  ∀ ts : Run, ts.tokens = v.tokens → (readExpr source ts).eval env = v

/-- Entries with keys that are new to an array are added to it in order. -/
theorem evalItems_keyed {items : List Run} {entries : List (Key × Value)}
    (hitems : items.map Run.tokens = entryTokens true entries)
    (hkeys : ∀ e ∈ entries, e.1.IsLiteral) (hvalues : ∀ e ∈ entries, EvalsTo source env e.2)
    {b : ArrayBuilder} (hnodup : ((b.entries ++ entries).map (·.1)).Nodup) :
    (evalItems env b (items.map (readItem source))).entries = b.entries ++ entries ∧
      (evalItems env b (items.map (readItem source))).overflowed = b.overflowed := by
  induction entries generalizing items b with
  | nil =>
    obtain rfl := List.map_eq_nil_iff.1 hitems
    exact ⟨(List.append_nil _).symm, rfl⟩
  | cons e entries ih =>
    obtain ⟨item, items, rfl, hitem, hrest⟩ := List.map_eq_cons_iff.1 hitems
    obtain ⟨hkey, hkeys⟩ := List.forall_mem_cons.1 hkeys
    obtain ⟨hvalue, hvalues⟩ := List.forall_mem_cons.1 hvalues
    obtain ⟨a, ts, rfl, ha, harrow⟩ := exists_append_of_tokens hitem
    obtain ⟨i, ts, rfl, hts⟩ := exists_cons_of_tokens harrow
    have hnew : e.1 ∉ b.entries.map (·.1) := by
      rw [List.map_append, List.nodup_append] at hnodup
      exact fun hmem => hnodup.2.2 _ hmem _ List.mem_cons_self rfl
    have hwrite : (b.write e.1 e.2).entries = b.entries ++ [e] :=
      ArrayBuilder.assign_of_notMem hnew
    have hitems' := ih hrest hkeys hvalues (b := b.write e.1 e.2) (by
      rwa [hwrite, List.append_assoc])
    rw [hwrite, List.append_assoc] at hitems'
    rw [List.map_cons, readItem_entry ha, evalItems, ArrayItem.addTo]
    simp only [eval_key hkey ha, hvalue ts hts]
    exact hitems'

/-- Before the keys of a list that has entries comes no greatest integer. -/
theorem lt_maxInt_of_list {entries : List (Key × Value)} {n : Int} (hne : entries ≠ [])
    (hlist : (valuesFrom? (n + 1) entries).isSome = true) (hkeys : ∀ e ∈ entries, e.1.IsLiteral) :
    n < Number.maxInt := by
  obtain ⟨⟨key, value⟩, entries, rfl⟩ := List.exists_cons_of_ne_nil hne
  rw [valuesFrom?] at hlist
  split at hlist
  · rename_i hkey
    have hmax : n + 1 ≤ Number.maxInt := by
      have hliteral := hkeys _ List.mem_cons_self
      rw [hkey] at hliteral
      exact hliteral.2
    omega
  · cases hlist

/-- Values are added to a list in order. -/
theorem evalItems_list {items : List Run} {entries : List (Key × Value)}
    (hitems : items.map Run.tokens = entryTokens false entries) {n : Int}
    (hlist : (valuesFrom? n entries).isSome = true) (hkeys : ∀ e ∈ entries, e.1.IsLiteral)
    (hvalues : ∀ e ∈ entries, EvalsTo source env e.2) {b : ArrayBuilder}
    (hnext : entries ≠ [] → b.next = some n)
    (hnodup : ((b.entries ++ entries).map (·.1)).Nodup) :
    (evalItems env b (items.map (readItem source))).entries = b.entries ++ entries ∧
      (evalItems env b (items.map (readItem source))).overflowed = b.overflowed := by
  induction entries generalizing items b n with
  | nil =>
    obtain rfl := List.map_eq_nil_iff.1 hitems
    exact ⟨(List.append_nil _).symm, rfl⟩
  | cons e entries ih =>
    obtain ⟨item, items, rfl, hitem, hrest⟩ := List.map_eq_cons_iff.1 hitems
    obtain ⟨key, value⟩ := e
    obtain ⟨-, hkeys'⟩ := List.forall_mem_cons.1 hkeys
    obtain ⟨hvalue, hvalues'⟩ := List.forall_mem_cons.1 hvalues
    rw [valuesFrom?] at hlist
    split at hlist
    · rename_i hn
      subst hn
      have hnew : Key.int n ∉ b.entries.map (·.1) := by
        rw [List.map_append, List.nodup_append] at hnodup
        exact fun hmem => hnodup.2.2 _ hmem _ List.mem_cons_self rfl
      have happend : b.append value = b.write (.int n) value := by
        rw [ArrayBuilder.append, hnext (List.cons_ne_nil _ _)]
      have hwrite : (b.write (.int n) value).entries = b.entries ++ [(.int n, value)] :=
        ArrayBuilder.assign_of_notMem hnew
      have hlist' : (valuesFrom? (n + 1) entries).isSome = true := by
        simpa using hlist
      -- the greatest integer is the key of the last entry at most
      have hnext' : entries ≠ [] → (b.write (.int n) value).next = some (n + 1) := by
        intro hne
        have hlt := lt_maxInt_of_list hne hlist' hkeys'
        rw [ArrayBuilder.write, ArrayBuilder.nextAfter, if_neg (Int.ne_of_lt hlt),
          hnext (List.cons_ne_nil _ _), Option.map_some,
          Int.max_eq_right (Int.le_of_lt (Int.lt_succ n))]
      have hitems' := ih hrest hlist' hkeys' hvalues' hnext' (by rwa [hwrite, List.append_assoc])
      rw [hwrite, List.append_assoc] at hitems'
      rw [List.map_cons, readItem_value hitem, evalItems, ArrayItem.addTo, hvalue item hitem,
        happend]
      exact hitems'
    · cases hlist

theorem entry_ne_nil {e : Key × Value} (h : e.2.IsLiteral) (keyed : Bool) :
    (if keyed then e.1.tokens ++ .symbol "=>" :: e.2.tokens else e.2.tokens) ≠ [] := by
  cases keyed with
  | false => exact tokens_ne_nil h
  | true => simp

/-- The items of a literal array. -/
theorem map_tokens_items {entries : List (Key × Value)} {keyed : Bool}
    (h : ∀ e ∈ entries, e.2.IsLiteral) {inner : Run}
    (hinner : inner.tokens = [.symbol ","].intercalate (entryTokens keyed entries)) :
    (inner.splitTopLevel ",").map Run.tokens = entryTokens keyed entries := by
  rw [entryTokens_eq_map] at hinner ⊢
  refine map_tokens_splitTopLevel rfl ?_ ?_ hinner
  · exact List.forall_mem_map.2 fun e _ => piece_entry e keyed
  · intro hlast
    obtain ⟨e, he, hnil⟩ := List.mem_map.1 (List.mem_of_getLast? hlast)
    exact entry_ne_nil (h e he) keyed hnil

/-- The tokens of a literal value are evaluated to the value. -/
theorem evalsTo {v : Value} (h : v.IsLiteral) (source : List Char) (env : Bindings) :
    EvalsTo source env v := by
  induction v using inductionOn with
  | null => exact fun ts hts => eval_null hts
  | bool value => exact fun ts hts => eval_bool hts
  | int n => exact fun ts hts => eval_int h.1 h.2 hts
  | float x => exact h.elim
  | string s => exact fun ts hts => eval_string hts
  | foreign type => exact h.elim
  | array entries ih =>
    intro ts hts
    obtain ⟨hnodup, hentries⟩ := h
    rw [areLiteral_iff] at hentries
    have hkeys : ∀ e ∈ entries, e.1.IsLiteral := fun e he => (hentries e he).1
    have hvalues : ∀ e ∈ entries, EvalsTo source env e.2 := fun e he => ih e he (hentries e he).2
    obtain ⟨i, ts, rfl, hinner⟩ := exists_cons_of_tokens hts
    obtain ⟨inner, close, rfl, hitems, hclose⟩ := exists_append_of_tokens hinner
    obtain ⟨j, rest, rfl, hrest⟩ := exists_cons_of_tokens hclose
    obtain rfl := List.map_eq_nil_iff.1 hrest
    have hbalanced : balanced 0 inner.tokens = true := by
      rw [hitems, entryTokens_eq_map]
      refine balanced_intercalate rfl rfl (List.forall_mem_map.2 fun e _ => ?_)
      exact (piece_entry e _).balanced
    have hsplit := map_tokens_items (fun e he => (hentries e he).2) hitems
    rw [readExpr_eq, Shape.of_array hbalanced, Expr.eval]
    cases hlist : (valuesFrom? 0 entries).isNone with
    | true =>
      rw [hlist] at hsplit
      obtain ⟨hbuilt, hoverflowed⟩ := evalItems_keyed hsplit hkeys hvalues (b := {}) hnodup
      rw [ArrayBuilder.build, hoverflowed, hbuilt]
      rfl
    | false =>
      rw [hlist] at hsplit
      have hsome : (valuesFrom? 0 entries).isSome = true := by
        rw [← Option.not_isNone, hlist]
        rfl
      obtain ⟨hbuilt, hoverflowed⟩ :=
        evalItems_list hsplit hsome hkeys hvalues (b := {}) (fun _ => rfl) hnodup
      rw [ArrayBuilder.build, hoverflowed, hbuilt]
      rfl

end

theorem filter_code_number (n : Int) :
    (Number.tokens n).filter (!·.isDoc) = Number.tokens n := by
  rw [Number.tokens]
  split <;> rfl

theorem filter_code_tokens (v : Value) : v.tokens.filter (!·.isDoc) = v.tokens := by
  induction v using inductionOn with
  | int n => exact filter_code_number n
  | array entries ih =>
    have hentries : ∀ p ∈ entryTokens (valuesFrom? 0 entries).isNone entries,
        p.filter (!·.isDoc) = p := by
      rw [entryTokens_eq_map, List.forall_mem_map]
      intro e he
      have hkey : e.1.tokens.filter (!·.isDoc) = e.1.tokens := by
        cases e.1 with
        | int n => exact filter_code_number n
        | string s => rfl
      split
      · rw [List.filter_append, hkey, List.filter_cons_of_pos rfl, ih e he]
      · exact ih e he
    have hcomma : (Token.symbol ",").isDoc = false := rfl
    rw [tokens, List.filter_cons_of_pos rfl, List.filter_append,
      filter_code_intercalate hcomma _ hentries]
    rfl
  | _ => rfl

/-- **A literal value is read back**: the statement that returns its text is evaluated to the
value. -/
theorem run_return_text {v : Value} (h : v.IsLiteral) :
    ∃ ts, scan ("return " ++ v.text ++ ";").toList = .ok ts ∧
      (Bindings.run [] (readStatements ("return " ++ v.text ++ ";").toList ts)).2 = some v := by
  have hreturn : Covers "return".toList [⟨.name, "return"⟩] := covers_name (by decide)
  have hsemicolon := (stands_solitary (s := ";") (by decide) []).covers
  have hcovers := hreturn.append_space ((covers_text h).append (d := ';') (by decide) hsemicolon)
  have htext : ("return " ++ v.text ++ ";").toList =
      "return".toList ++ ' ' :: (v.text.toList ++ [';']) := by simp
  rw [← htext] at hcovers
  obtain ⟨ts, hscan, htokens⟩ := scans_iff.1 hcovers.scans
  refine ⟨ts, hscan, ?_⟩
  obtain ⟨inner, s, hinner, hstatements, hform⟩ := readStatements_return
    ("return " ++ v.text ++ ";").toList (piece_tokens (by decide) v)
    (by rw [filter_code_tokens]; exact tokens_ne_nil h) htokens
  rw [filter_code_tokens] at hinner
  rw [hstatements]
  simp only [Bindings.run, List.foldl_cons, List.foldl_nil, Bindings.step, hform,
    evalsTo h _ _ inner hinner]

/-- An array with keys of both kinds, and with strings that hold quotes, comment marks and line
ends. -/
def nested : Value :=
  .array [(.string "it's", .string "\\ /* \n ?> <?php"),
    (.int 3, .array [(.int 0, .int (-5)), (.int 1, .array []), (.int 2, .null)]),
    (.string "-0", .bool true)]

theorem run_return_text_nested : nested.IsLiteral ∧
    ∃ ts, scan ("return " ++ nested.text ++ ";").toList = .ok ts ∧
      (Bindings.run [] (readStatements ("return " ++ nested.text ++ ";").toList ts)).2 =
        some nested := by
  have hsmall (n : Int) (h : -5 ≤ n ∧ n ≤ 3) : (Key.int n).IsLiteral := by
    simp only [Key.IsLiteral, Number.minInt, Number.maxInt]
    omega
  have hstrings : (Key.string "it's").IsLiteral ∧ (Key.string "-0").IsLiteral := by
    simp only [Key.isLiteral_string_iff]
    decide +kernel
  have hinner : AreLiteral [(.int 0, .int (-5)), (.int 1, .array []), (.int 2, .null)] :=
    ⟨hsmall 0 (by decide), hsmall (-5) (by decide), hsmall 1 (by decide), ⟨.nil, trivial⟩,
      hsmall 2 (by decide), trivial, trivial⟩
  have hliteral : nested.IsLiteral :=
    ⟨by decide, hstrings.1, trivial, hsmall 3 (by decide), ⟨by decide, hinner⟩, hstrings.2, trivial,
      trivial⟩
  exact ⟨hliteral, run_return_text hliteral⟩

end Value

end CurryGen

import CurryGen.Proofs.Token.Weight
import CurryGen.Proofs.Tree.ClassForm

/-!
# Kinds of brackets

Reading counts brackets, and a bracket of one kind may close one of another. This module says for
which classes that makes a difference.

* `Token.Nested`: every bracket is closed by one of its kind.
* `Token.nested_iff`: balanced tokens are nested if each bracket and the one that the count gives it
  are of one kind.
* `ClassSpan`, `Declares`: which tokens of a file are its classes.
* `SourceFile.read_nested_iff`: the brackets of every class are balanced, and when they are nested.
-/

namespace CurryGen

namespace Token

/-! ## Nesting -/

/-- Whether the bracket `o` is closed by the bracket `c`, which is of its kind. -/
def isClosedBy (o c : Token) : Bool :=
  o.isSymbol "(" && c.isSymbol ")" || o.isSymbol "[" && c.isSymbol "]"
    || o.isSymbol "\x7b" && c.isSymbol "\x7d"

/-- Every bracket is closed by one of its kind. -/
inductive Nested : List Token → Prop
  | nil : Nested []
  | plain {t : Token} {ts : List Token} : t.isPlain = true → Nested ts → Nested (t :: ts)
  | group {o c : Token} {inner ts : List Token} : o.isClosedBy c = true → Nested inner → Nested ts →
      Nested (o :: (inner ++ c :: ts))

/-- In the tokens `ts`, the bracket `c` closes the bracket `o` if brackets of all kinds count the
same. -/
def Pairs (ts : List Token) (o c : Token) : Prop :=
  ∃ a b d, ts = a ++ o :: (b ++ c :: d) ∧ o.isOpen = true ∧ c.isClose = true ∧ balanced 0 b = true

variable {t o c o' c' : Token} {ts inner : List Token}

theorem isOpen_of_isClosedBy (h : o.isClosedBy c = true) : o.isOpen = true ∧ c.isClose = true := by
  simp only [isClosedBy, Bool.or_eq_true, Bool.and_eq_true] at h
  rcases h with (⟨ho, hc⟩ | ⟨ho, hc⟩) | ⟨ho, hc⟩ <;>
    rw [eq_of_isSymbol ho, eq_of_isSymbol hc] <;> exact ⟨rfl, rfl⟩

theorem Nested.balanced (h : Nested ts) : balanced 0 ts = true := by
  induction h with
  | nil => rfl
  | plain ht _ ih => rwa [balanced_cons_of_isPlain ht]
  | group hkind _ _ ihinner ihts =>
    obtain ⟨hopen, hclose⟩ := isOpen_of_isClosedBy hkind
    simpa using balanced_append_of (balanced_group hopen hclose ihinner) ihts

/-- Tokens that close more brackets than they open go on to the first that closes one. -/
theorem exists_close {ts : List Token} {k : Nat} (h : balanced (k + 1) ts = true) :
    ∃ b c d, ts = b ++ c :: d ∧ c.isClose = true ∧ balanced 0 b = true ∧ balanced k d = true := by
  induction hn : ts.length using Nat.strongRecOn generalizing k ts with
  | ind n ih =>
    cases ts with
    | nil => cases h
    | cons t ts =>
      obtain ⟨-, hrest⟩ := balanced_cons h
      have hlt : ts.length < n := hn ▸ Nat.lt_succ_self _
      cases hopen : t.isOpen with
      | true =>
        rw [depthAfter, hopen, if_pos rfl] at hrest
        -- The group that begins here comes before the bracket that is looked for.
        obtain ⟨b, c, d, rfl, hc, hb, hd⟩ := ih _ hlt hrest rfl
        have hlength : d.length < n := by
          rw [List.length_append, List.length_cons] at hlt
          omega
        obtain ⟨b', c', d', rfl, hc', hb', hd'⟩ := ih _ hlength hd rfl
        refine ⟨t :: (b ++ c :: b'), c', d', by simp, hc', ?_, hd'⟩
        have hgroup := balanced_append_of (balanced_group hopen hc hb) hb'
        simpa using hgroup
      | false =>
        cases hclose : t.isClose with
        | true =>
          refine ⟨[], t, ts, rfl, hclose, rfl, ?_⟩
          rwa [depthAfter, hopen, hclose] at hrest
        | false =>
          rw [depthAfter, hopen, hclose] at hrest
          obtain ⟨b, c, d, rfl, hc, hb, hd⟩ := ih _ hlt hrest rfl
          refine ⟨t :: b, c, d, rfl, hc, ?_, hd⟩
          rwa [balanced_cons_of_isPlain (by simp [isPlain, hopen, hclose])]

/-- Balanced tokens are plain ones and groups. -/
theorem balanced_induction {P : List Token → Prop} (nil : P [])
    (plain : ∀ t ts, t.isPlain = true → balanced 0 ts = true → P ts → P (t :: ts))
    (group : ∀ o inner c ts, o.isOpen = true → c.isClose = true → balanced 0 inner = true →
      balanced 0 ts = true → P inner → P ts → P (o :: (inner ++ c :: ts)))
    {ts : List Token} (h : balanced 0 ts = true) : P ts := by
  induction hn : ts.length using Nat.strongRecOn generalizing ts with
  | ind n ih =>
    cases ts with
    | nil => exact nil
    | cons t ts =>
      obtain ⟨hearly, hrest⟩ := balanced_cons h
      have hlt : ts.length < n := hn ▸ Nat.lt_succ_self _
      have hclose : t.isClose = false := by simpa using hearly
      cases hopen : t.isOpen with
      | true =>
        rw [depthAfter, hopen, if_pos rfl] at hrest
        obtain ⟨inner, c, ts, rfl, hc, hinner, hts⟩ := exists_close hrest
        rw [List.length_append, List.length_cons] at hlt
        exact group t inner c ts hopen hc hinner hts (ih _ (by omega) hinner rfl)
          (ih _ (by omega) hts rfl)
      | false =>
        rw [depthAfter, hopen, hclose] at hrest
        exact plain t ts (by simp [isPlain, hopen, hclose]) hrest (ih _ hlt hrest rfl)

/-! ## Pairs -/

namespace Pairs

theorem cons (h : Pairs ts o c) (t : Token) : Pairs (t :: ts) o c := by
  obtain ⟨a, b, d, rfl, h⟩ := h
  exact ⟨t :: a, b, d, rfl, h⟩

theorem append_left (h : Pairs ts o c) (us : List Token) : Pairs (us ++ ts) o c := by
  obtain ⟨a, b, d, rfl, h⟩ := h
  exact ⟨us ++ a, b, d, by simp, h⟩

theorem append_right (h : Pairs ts o c) (us : List Token) : Pairs (ts ++ us) o c := by
  obtain ⟨a, b, d, rfl, h⟩ := h
  exact ⟨a, b, d ++ us, by simp, h⟩

end Pairs

theorem balanced_append_close {b : List Token} (hb : balanced 0 b = true) (hc : c.isClose = true)
    (m : List Token) : balanced 0 (b ++ c :: m) = false := by
  have hpassed := balanced_append (b := c :: m) hb 0
  rw [Nat.zero_add] at hpassed
  rw [hpassed, balanced, hc]
  rfl

/-- Only one bracket closes what is open. -/
theorem close_unique {b b' d d' : List Token} (heq : b ++ c :: d = b' ++ c' :: d')
    (hc : c.isClose = true) (hc' : c'.isClose = true) (hb : balanced 0 b = true)
    (hb' : balanced 0 b' = true) : b = b' ∧ c = c' := by
  rcases List.append_eq_append_iff.1 heq with ⟨m, rfl, hm⟩ | ⟨m, rfl, hm⟩
  · cases m with
    | nil => exact ⟨(List.append_nil b).symm, (List.cons.inj hm).1⟩
    | cons t m =>
      obtain ⟨rfl, -⟩ := List.cons.inj hm
      rw [balanced_append_close hb hc] at hb'
      cases hb'
  · cases m with
    | nil => exact ⟨List.append_nil b', (List.cons.inj hm).1.symm⟩
    | cons t m =>
      obtain ⟨rfl, -⟩ := List.cons.inj hm
      rw [balanced_append_close hb' hc'] at hb
      cases hb

/-- The pairs of a group are its two brackets, and the pairs inside and after it. -/
theorem pairs_group (hclose : c.isClose = true)
    (hinner : balanced 0 inner = true) (h : Pairs (o :: (inner ++ c :: ts)) o' c') :
    (o' = o ∧ c' = c) ∨ Pairs inner o' c' ∨ Pairs ts o' c' := by
  obtain ⟨a, b, d, heq, ho', hc', hb⟩ := h
  cases a with
  | nil =>
    obtain ⟨rfl, hrest⟩ := List.cons.inj heq
    exact .inl ⟨rfl, (close_unique hrest hclose hc' hinner hb).2.symm⟩
  | cons t a =>
    obtain ⟨rfl, hrest⟩ := List.cons.inj heq
    have hne : o' ≠ c := by
      rintro rfl
      rw [isClose_of_isOpen ho'] at hclose
      cases hclose
    rcases List.append_eq_append_iff.1 hrest with ⟨m, rfl, hm⟩ | ⟨m, rfl, hm⟩
    · cases m with
      | nil => exact absurd (List.cons.inj hm).1.symm hne
      | cons t m =>
        obtain ⟨rfl, rfl⟩ := List.cons.inj hm
        exact .inr (.inr ⟨m, b, d, rfl, ho', hc', hb⟩)
    · cases m with
      | nil => exact absurd (List.cons.inj hm).1 hne
      | cons t m =>
        obtain ⟨rfl, hinside⟩ := List.cons.inj hm
        -- The bracket is inside the group, and so is the one that closes it.
        obtain ⟨k, hk⟩ := exists_balanced_of_append hinner
        rw [balanced, isClose_of_isOpen ho', depthAfter, if_pos ho', Bool.and_eq_true] at hk
        obtain ⟨b₁, c₁, d₁, rfl, hc₁, hb₁, -⟩ := exists_close hk.2
        obtain ⟨rfl, rfl⟩ :=
          close_unique (hinside.trans (List.append_assoc b₁ (c₁ :: d₁) _)) hc' hc₁ hb hb₁
        exact .inr (.inl ⟨a, b, d₁, rfl, ho', hc', hb⟩)

/-- Balanced tokens are nested if each bracket and the one that the count gives it are of one kind. -/
theorem nested_iff (h : balanced 0 ts = true) :
    Nested ts ↔ ∀ o c, Pairs ts o c → o.isClosedBy c = true := by
  constructor
  · intro hnested
    clear h
    induction hnested with
    | nil =>
      rintro o c ⟨a, b, d, heq, -⟩
      cases a <;> cases heq
    | plain ht _ ih =>
      rintro o c ⟨a, b, d, heq, hopen, h⟩
      cases a with
      | nil =>
        obtain ⟨rfl, -⟩ := List.cons.inj heq
        simp [isPlain, hopen] at ht
      | cons t a => exact ih o c ⟨a, b, d, (List.cons.inj heq).2, hopen, h⟩
    | group hkind hinner _ ihinner ihts =>
      intro o c hpair
      have hclose := (isOpen_of_isClosedBy hkind).2
      rcases pairs_group hclose hinner.balanced hpair with ⟨rfl, rfl⟩ | hpair | hpair
      · exact hkind
      · exact ihinner o c hpair
      · exact ihts o c hpair
  · refine balanced_induction (P := fun ts =>
      (∀ o c, Pairs ts o c → o.isClosedBy c = true) → Nested ts) ?nil ?plain ?group h
    case nil => exact fun _ => .nil
    case plain =>
      intro t ts ht _ ih hkinds
      exact .plain ht (ih fun o c hpair => hkinds o c (hpair.cons t))
    case group =>
      intro o inner c ts hopen hclose hinner _ ihinner ihts hkinds
      refine .group (hkinds o c ⟨[], inner, ts, rfl, hopen, hclose, hinner⟩) (ihinner ?_) (ihts ?_)
      · exact fun o' c' hpair => hkinds o' c' ((hpair.append_right (c :: ts)).cons o)
      · exact fun o' c' hpair => hkinds o' c' (((hpair.cons c).append_left inner).cons o)

end Token

namespace Declaration

open Run Token

/-! ## The tokens of a class -/

/-- The tokens of a class, which ends with the bracket that the count gives its opening brace. -/
structure ClassSpan where
  kind : ClassKind
  keyword : Placed
  /-- What stands between the keyword and the opening brace. -/
  header : Run
  braces : Group
  ofToken?_keyword : ClassKind.ofToken? keyword.toToken = some kind
  isSymbol_header : ∀ t ∈ header, t.isSymbol "\x7b" = false
  isSymbol_opening : braces.opening.isSymbol "\x7b" = true

namespace ClassSpan

/-- What stands after the keyword. -/
def content (s : ClassSpan) : Run := s.header ++ s.braces.run

def run (s : ClassSpan) : Run := s.keyword :: s.content

end ClassSpan

/-- The tokens of a file declare the classes `cs` one after the other, and the tokens of each class
are those of its span in `spans`. -/
inductive Declares (ctx : Context) : Run → List ClassDecl → List ClassSpan → Prop
  | nil : Declares ctx [] [] []
  | other {t : Placed} {ts : Run} {cs : List ClassDecl} {spans : List ClassSpan} :
      Declares ctx ts cs spans → Declares ctx (t :: ts) cs spans
  | declared {c : ClassDecl} {s : ClassSpan} {rest : Run} {cs : List ClassDecl}
      {spans : List ClassSpan} :
      readClass ctx s.kind s.keyword (s.content ++ rest) = .ok (c, rest) →
      Declares ctx rest cs spans → Declares ctx (s.run ++ rest) (c :: cs) (s :: spans)

variable {ctx : Context}

theorem Declares.of_isSuffix {ts us : Run} {cs : List ClassDecl} {spans : List ClassSpan}
    (h : Declares ctx us cs spans) (hsuffix : us <:+ ts) : Declares ctx ts cs spans := by
  obtain ⟨front, rfl⟩ := hsuffix
  induction front with
  | nil => exact h
  | cons t front ih => exact .other ih

theorem exists_span {kind : ClassKind} {keyword : Placed} {ts rest : Run} {c : ClassDecl}
    (hkind : ClassKind.ofToken? keyword.toToken = some kind)
    (h : readClass ctx kind keyword ts = .ok (c, rest)) :
    ∃ s : ClassSpan, s.kind = kind ∧ s.keyword = keyword ∧ ts = s.content ++ rest := by
  obtain ⟨text, inner, methods, hname, hgroup, -, -⟩ := exists_of_readClass h
  cases ts with
  | nil => cases hname
  | cons name ts =>
    have hname : name.name? = some text := hname
    have hkind_name : name.kind = .name := by
      by_contra hother
      simp [name?, hother] at hname
    simp only [List.drop_succ_cons, List.drop_zero] at hgroup
    obtain ⟨opening, closing, hopening, hopen, hclose, hinner⟩ := group?_eq_some_iff.1 hgroup
    have hbrace : opening.isSymbol "\x7b" = true := by
      have hhead := List.head?_dropWhile_not (fun t : Placed => !t.isSymbol "\x7b") ts
      rw [hopening] at hhead
      simpa using hhead
    refine ⟨⟨kind, keyword, name :: ts.takeWhile (!·.isSymbol "\x7b"),
      ⟨opening, inner, closing, hopen, hclose, hinner⟩, hkind, ?_, hbrace⟩, rfl, rfl, ?_⟩
    · refine List.forall_mem_cons.2 ⟨isSymbol_of_ne_symbol (by simp [hkind_name]) _, ?_⟩
      intro t ht
      simpa using List.mem_takeWhile_imp ht
    · have hsplit :=
        List.takeWhile_append_dropWhile (p := fun t : Placed => !t.isSymbol "\x7b") (l := ts)
      rw [hopening] at hsplit
      rw [ClassSpan.content, List.append_assoc, Group.run_append, List.cons_append, hsplit]

theorem declares_of_readFile {afterScope : Bool} {ts : Run} {file : SourceFile}
    (h : readFile ctx afterScope ts = .ok file) : ∃ spans, Declares ctx ts file.classes spans := by
  have hreads := readsClasses_of_readFile h
  clear h
  generalize file.classes = cs at hreads
  induction hreads with
  | nil => exact ⟨[], .nil⟩
  | pass hsuffix _ ih =>
    obtain ⟨spans, hspans⟩ := ih
    exact ⟨spans, .other (hspans.of_isSuffix hsuffix)⟩
  | declared hkeyword hclass _ ih =>
    obtain ⟨s, rfl, rfl, rfl⟩ := exists_span hkeyword hclass
    obtain ⟨spans, hspans⟩ := ih
    exact ⟨s :: spans, .declared hclass hspans⟩

end Declaration

open Declaration in
/-- **The brackets of every class that is read are balanced; they are nested by kind if, and only if,
each of them and the one that the count gives it are of one kind.** -/
theorem SourceFile.read_nested_iff {path : Path} {text : String} {file : SourceFile}
    (h : SourceFile.read path text = .ok file) :
    ∃ (run : Run) (spans : List ClassSpan), Run.read path text = .ok run ∧
      Declares ⟨text.toList, (run.getLast?.map (·.start)).getD 0⟩ run file.classes spans ∧
      ∀ s ∈ spans, Token.balanced 0 s.braces.run.tokens = true ∧
        (Token.Nested s.braces.run.tokens ↔
          ∀ o c, Token.Pairs s.braces.run.tokens o c → o.isClosedBy c = true) := by
  rw [SourceFile.read] at h
  split at h
  · cases h
  · rename_i run hrun
    split at h
    · cases h
    · rename_i hfile
      cases h
      obtain ⟨spans, hspans⟩ := declares_of_readFile hfile
      refine ⟨run, spans, hrun, hspans, fun s _ => ?_⟩
      exact ⟨s.braces.balanced_run, Token.nested_iff s.braces.balanced_run⟩

open Declaration in
/-- A class that begins with a brace and ends with a square bracket is read. -/
theorem SourceFile.read_nested_iff_mismatched :
    ∃ (file : SourceFile) (run : Run) (spans : List ClassSpan),
      SourceFile.read ⟨"source.php"⟩ "class T \x7b ]" = .ok file ∧
      file.classes.map (·.name) = ["T"] ∧
      run.tokens = [⟨.name, "class"⟩, ⟨.name, "T"⟩, .symbol "\x7b", .symbol "]"] ∧
      Declares ⟨"class T \x7b ]".toList, 10⟩ run file.classes spans ∧
      (∀ s ∈ spans, Token.Nested s.braces.run.tokens ↔
        ∀ o c, Token.Pairs s.braces.run.tokens o c → o.isClosedBy c = true) ∧
      ¬Token.Nested [.symbol "\x7b", .symbol "]"] := by
  have hscan : scan "class T \x7b ]".toList = .ok [⟨⟨.name, "class"⟩, 0⟩, ⟨⟨.name, "T"⟩, 6⟩,
      ⟨.symbol "\x7b", 8⟩, ⟨.symbol "]", 10⟩] := by cbv
  have hclass (last : Nat) : readClass ⟨"class T \x7b ]".toList, last⟩ .regular ⟨⟨.name, "class"⟩, 0⟩
      [⟨⟨.name, "T"⟩, 6⟩, ⟨.symbol "\x7b", 8⟩, ⟨.symbol "]", 10⟩] =
        .ok ({ kind := .regular, name := "T", methods := [] }, []) := by
    have hmembers : readMembers ⟨"class T \x7b ]".toList, last⟩ 1 none [] [⟨.symbol "]", 10⟩] =
        .ok [] := by
      rw [readMembers.eq_def, if_pos (by decide)]
    have hname (u : Run) : (⟨⟨.name, "T"⟩, 6⟩ :: u : Run).head?.bind (·.name?) = some "T" := rfl
    have hopening (u : Run) : (⟨.symbol "\x7b", 8⟩ :: u : Run).dropWhile
        (fun t : Placed => !t.isSymbol "\x7b") = ⟨.symbol "\x7b", 8⟩ :: u := rfl
    have hgroup : Run.group? [⟨.symbol "\x7b", 8⟩, ⟨.symbol "]", 10⟩] = some ([], []) := rfl
    simp only [readClass, hname, List.drop_succ_cons, List.drop_zero, hopening, hgroup,
      List.length_nil, Nat.zero_add, hmembers]
  have hread := @SourceFile.read_class ⟨"source.php"⟩ _ _ _ _ hscan rfl hclass
  obtain ⟨run, spans, hrun, hdeclares, hspans⟩ := SourceFile.read_nested_iff hread
  rw [Run.read, hscan] at hrun
  cases hrun
  refine ⟨_, _, spans, hread, rfl, rfl, hdeclares, fun s hs => (hspans s hs).2, fun hnested => ?_⟩
  have hkinds := (Token.nested_iff (by decide)).1 hnested (.symbol "\x7b") (.symbol "]")
  exact absurd (hkinds ⟨[], [], [], rfl, rfl, rfl, rfl⟩) (by decide)

end CurryGen

import CurryGen.Proofs.Delegation
import Mathlib.Logic.Relation

/-!
# Functions that delegate in a circle

A walk that meets a function again reports the functions it has come through. They lead from the
function that was asked for into a circle, and once round it.

* `DelegatesTo.unique`: a function delegates to one other at most, so there is one way to go.
* `runsIntoCycle_of_walk`: what a reported chain looks like, by induction on the walk. The names on
  the way to a function stay the front of the chain.
* `exists_walk_eq_cyclic`: a circle that can be reached is reported.
* `RunsIntoCycle.isCycle_iff`: the chain is the circle itself iff the function asked for lies on it.
* `cyclic_answers_iff`: the same of the answers to any queries.
-/

namespace CurryGen.Template

open Relation

variable {t : Template} {name : String} {chain : List String}

/-- A chain of functions goes round a circle once: it ends with the function it starts with, it has
no other repetition, and each function in it delegates directly to the next one. -/
structure IsCycle (t : Template) (chain : List String) : Prop where
  closes : ∃ first others, chain = first :: (others ++ [first])
  nodup : chain.dropLast.Nodup
  delegates : chain.IsChain t.DelegatesTo

/-- A chain of functions leads from `name` into a circle and once round it. Only its last function
is one that it has met before. -/
structure RunsIntoCycle (t : Template) (name : String) (chain : List String) : Prop where
  starts : chain.head? = some name
  nodup : chain.dropLast.Nodup
  delegates : chain.IsChain t.DelegatesTo
  ends : ∃ lead cycle, chain = lead ++ cycle ∧ t.IsCycle cycle

/-- From the function `name` delegation leads to one that delegates, over others or directly, to
itself. -/
def LeadsIntoCycle (t : Template) (name : String) : Prop :=
  ∃ other, ReflTransGen t.DelegatesTo name other ∧ TransGen t.DelegatesTo other other

/-! ## One way to go -/

theorem DelegatesTo.unique {a b c : String} (hb : t.DelegatesTo a b) (hc : t.DelegatesTo a c) :
    b = c := by
  obtain ⟨f, e, hf, he, hd⟩ := delegatesTo_iff.1 hb
  obtain ⟨f', e', hf', he', hd'⟩ := delegatesTo_iff.1 hc
  obtain rfl : f = f' := Option.some.inj (hf.symm.trans hf')
  obtain rfl : e = e' := Option.some.inj (he.symm.trans he')
  exact Delegation.function.inj (hd.symm.trans hd')

/-- Where delegation leads into a circle, it goes on to a function from which it does so too. -/
theorem LeadsIntoCycle.next (h : t.LeadsIntoCycle name) :
    ∃ next, t.DelegatesTo name next ∧ t.LeadsIntoCycle next := by
  obtain ⟨other, hreach, hcycle⟩ := h
  rcases hreach.cases_head with rfl | ⟨next, hnext, hreach⟩
  · obtain ⟨next, hnext, hback⟩ := TransGen.head'_iff.1 hcycle
    exact ⟨next, hnext, name, hback, hcycle⟩
  · exact ⟨next, hnext, other, hreach, hcycle⟩

/-- The step of a walk from a function from which delegation leads into a circle. -/
theorem LeadsIntoCycle.exists_step (h : t.LeadsIntoCycle name) :
    ∃ f e next, t.find? name = some f ∧ returned? f = some e ∧ t.delegation e = .function next ∧
      t.LeadsIntoCycle next := by
  obtain ⟨next, hnext, hleads⟩ := h.next
  obtain ⟨f, e, hf, he, hd⟩ := delegatesTo_iff.1 hnext
  exact ⟨f, e, next, hf, he, hd, hleads⟩

/-- A function delegates to none but the one after it in a chain. -/
theorem mem_tail_of_delegatesTo (hchain : chain.IsChain t.DelegatesTo) {a b : String}
    (ha : a ∈ chain.dropLast) (hb : t.DelegatesTo a b) : b ∈ chain.tail := by
  induction chain with
  | nil => cases ha
  | cons x chain ih =>
    cases chain with
    | nil => cases ha
    | cons y chain =>
      obtain ⟨hxy, hrest⟩ := List.isChain_cons_cons.1 hchain
      rw [List.dropLast_cons_cons] at ha
      rcases List.mem_cons.1 ha with rfl | ha
      · rw [hb.unique hxy]
        exact List.mem_cons_self
      · exact List.mem_cons_of_mem y (ih hrest ha)

/-! ## Chains that are reported -/

/-- A walk that fails with a circle goes on from where it is to a function it has met. -/
theorem exists_of_walk_eq_cyclic {visited : List String} (hnodup : visited.Nodup)
    (hpath : (visited ++ [name]).IsChain t.DelegatesTo)
    (h : t.walk visited name = .error (.cyclicDelegation chain)) :
    ∃ path last, chain = path ++ [last] ∧ last ∈ path ∧ path.Nodup ∧
      chain.IsChain t.DelegatesTo ∧ visited ++ [name] <+: chain := by
  induction visited, name using walk.induct t with
  | case1 visited name hfind => rw [walk, hfind] at h; cases h
  | case2 visited name f hfind hvisited =>
    rw [walk, hfind] at h
    obtain rfl : visited ++ [name] = chain := by simpa [hvisited] using h
    exact ⟨visited, name, rfl, hvisited, hnodup, hpath, List.prefix_rfl⟩
  | case3 visited name f hfind hvisited hret => rw [walk, hfind] at h; simp [hvisited, hret] at h
  | case4 visited name f hfind hvisited e hret params hdel =>
    rw [walk, hfind] at h
    simp [hvisited, hret, hdel] at h
  | case5 visited name f hfind hvisited e hret next hdel ih =>
    rw [walk, hfind] at h
    have hnext : t.DelegatesTo name next := delegatesTo_iff.2 ⟨f, e, hfind, hret, hdel⟩
    have hpath' : (visited ++ [name] ++ [next]).IsChain t.DelegatesTo :=
      hpath.append (List.isChain_singleton next) (by simpa using hnext)
    have hnodup' : (visited ++ [name]).Nodup := by simpa using hnodup.concat hvisited
    obtain ⟨path, last, hchain, hlast, hpathNodup, hdelegates, hfront⟩ :=
      ih hnodup' hpath' (by simpa [hvisited, hret, hdel] using h)
    exact ⟨path, last, hchain, hlast, hpathNodup, hdelegates,
      (List.prefix_append _ _).trans hfront⟩

/-- The chain that a walk reports runs from its first function into a circle. -/
theorem runsIntoCycle_of_walk (h : t.walk [] name = .error (.cyclicDelegation chain)) :
    t.RunsIntoCycle name chain := by
  obtain ⟨path, last, rfl, hlast, hnodup, hdelegates, rest, hfront⟩ :=
    exists_of_walk_eq_cyclic List.nodup_nil (List.isChain_singleton name) h
  obtain ⟨lead, others, rfl⟩ := List.append_of_mem hlast
  have hsplit : lead ++ last :: others ++ [last] = lead ++ (last :: (others ++ [last])) := by simp
  refine ⟨?_, ?_, hdelegates, lead, last :: (others ++ [last]), hsplit, ⟨last, others, rfl⟩, ?_, ?_⟩
  · rw [← hfront]
    rfl
  · rwa [List.dropLast_concat]
  · rw [← List.cons_append, List.dropLast_concat]
    exact hnodup.of_append_right
  · rw [hsplit] at hdelegates
    exact hdelegates.right_of_append

/-- Where delegation leads into a circle, a walk reports one. -/
theorem exists_walk_eq_cyclic (h : t.LeadsIntoCycle name) (visited : List String) :
    ∃ chain, t.walk visited name = .error (.cyclicDelegation chain) := by
  induction visited, name using walk.induct t with
  | case1 visited name hfind =>
    obtain ⟨f, e, next, hf, -⟩ := h.exists_step
    rw [hfind] at hf
    cases hf
  | case2 visited name f hfind hvisited =>
    rw [walk, hfind]
    exact ⟨visited ++ [name], by simp [hvisited]⟩
  | case3 visited name f hfind hvisited hret =>
    obtain ⟨f', e, next, hf, he, -⟩ := h.exists_step
    obtain rfl : f = f' := Option.some.inj (hfind.symm.trans hf)
    rw [hret] at he
    cases he
  | case4 visited name f hfind hvisited e hret params hdel =>
    obtain ⟨f', e', next, hf, he, hd, -⟩ := h.exists_step
    obtain rfl : f = f' := Option.some.inj (hfind.symm.trans hf)
    obtain rfl : e = e' := Option.some.inj (hret.symm.trans he)
    rw [hdel] at hd
    cases hd
  | case5 visited name f hfind hvisited e hret next hdel ih =>
    obtain ⟨f', e', next', hf, he, hd, hleads⟩ := h.exists_step
    obtain rfl : f = f' := Option.some.inj (hfind.symm.trans hf)
    obtain rfl : e = e' := Option.some.inj (hret.symm.trans he)
    obtain rfl : next = next' := Delegation.function.inj (hdel.symm.trans hd)
    obtain ⟨chain, hchain⟩ := ih hleads
    rw [walk, hfind]
    exact ⟨chain, by simpa [hvisited, hret, hdel] using hchain⟩

/-! ## Circles -/

theorem IsCycle.transGen {first : String} {others : List String}
    (h : t.IsCycle (first :: (others ++ [first]))) : TransGen t.DelegatesTo first first := by
  have hchain := h.delegates.imp fun _ _ => TransGen.single
  exact hchain.rel_cons List.mem_concat_self

namespace RunsIntoCycle

/-- A chain that leads into a circle ends with a function that it has met. -/
theorem exists_eq (h : t.RunsIntoCycle name chain) :
    ∃ others last, chain = name :: (others ++ [last]) ∧ last ∈ name :: others := by
  obtain ⟨lead, cycle, rfl, ⟨first, inner, rfl⟩, -, -⟩ := h.ends
  have hstarts := h.starts
  cases lead with
  | nil =>
    obtain rfl : first = name := Option.some.inj hstarts
    exact ⟨inner, first, rfl, List.mem_cons_self⟩
  | cons x lead =>
    obtain rfl : x = name := Option.some.inj hstarts
    exact ⟨lead ++ first :: inner, first, by simp, by simp⟩

theorem leadsIntoCycle (h : t.RunsIntoCycle name chain) : t.LeadsIntoCycle name := by
  obtain ⟨lead, cycle, rfl, hcycle⟩ := h.ends
  obtain ⟨first, inner, rfl⟩ := hcycle.closes
  refine ⟨first, ?_, hcycle.transGen⟩
  have hstarts := h.starts
  cases lead with
  | nil =>
    obtain rfl : first = name := Option.some.inj hstarts
    exact .refl
  | cons x lead =>
    obtain rfl : x = name := Option.some.inj hstarts
    have hchain := h.delegates.imp fun _ _ => TransGen.single
    exact (List.IsChain.rel_cons hchain (by simp)).to_reflTransGen

/-- Delegation from the first function of such a chain leads to no function that is not in it. -/
theorem mem_tail (h : t.RunsIntoCycle name chain) {other : String}
    (hreach : TransGen t.DelegatesTo name other) : other ∈ chain.tail := by
  obtain ⟨others, last, rfl, hlast⟩ := h.exists_eq
  have hfront : (name :: (others ++ [last])).dropLast = name :: others := by
    rw [← List.cons_append, List.dropLast_concat]
  induction hreach with
  | single hnext =>
    refine mem_tail_of_delegatesTo h.delegates ?_ hnext
    rw [hfront]
    exact List.mem_cons_self
  | @tail a b _ hnext ih =>
    refine mem_tail_of_delegatesTo h.delegates ?_ hnext
    rw [hfront]
    rcases List.mem_append.1 ih with ha | ha
    · exact List.mem_cons_of_mem name ha
    · rwa [List.mem_singleton.1 ha]

/-- The chain is a circle iff its first function lies on one. -/
theorem isCycle_iff (h : t.RunsIntoCycle name chain) :
    t.IsCycle chain ↔ TransGen t.DelegatesTo name name := by
  constructor
  · intro hcycle
    obtain ⟨first, others, rfl⟩ := hcycle.closes
    obtain rfl : first = name := Option.some.inj h.starts
    exact hcycle.transGen
  · intro hreach
    have htail := h.mem_tail hreach
    have hnodup := h.nodup
    obtain ⟨others, last, rfl, -⟩ := h.exists_eq
    rw [← List.cons_append, List.dropLast_concat] at hnodup
    -- `name` comes again, and only the last function does
    obtain rfl : name = last := by
      rcases List.mem_append.1 htail with hname | hname
      · exact absurd hname (List.nodup_cons.1 hnodup).1
      · exact List.mem_singleton.1 hname
    exact ⟨⟨name, others, rfl⟩, h.nodup, h.delegates⟩

end RunsIntoCycle

/-- **What a reported circle says.** A query fails with a circle exactly when delegation leads into
one from the function asked for, whatever was asked before. The reported chain starts with that
function and leads into the circle and once round it; it is the circle alone iff the function lies
on it. -/
theorem cyclic_answers_iff (t : Template) (names : List String) :
    List.Forall₂ (fun name answer =>
        ((∃ chain, answer = .error (.cyclicDelegation chain)) ↔ t.LeadsIntoCycle name) ∧
          ∀ chain, answer = .error (.cyclicDelegation chain) →
            t.RunsIntoCycle name chain ∧ (t.IsCycle chain ↔ TransGen t.DelegatesTo name name))
      names (Memo.answers t {} names).1 := by
  rw [(Memo.answers_spec (t := t) Memo.sound_empty rfl names).1, List.forall₂_map_right_iff,
    List.forall₂_same]
  intro name _
  refine ⟨⟨?_, fun h => exists_walk_eq_cyclic h []⟩, fun chain hchain => ?_⟩
  · rintro ⟨chain, hchain⟩
    exact (runsIntoCycle_of_walk hchain).leadsIntoCycle
  · have hruns := runsIntoCycle_of_walk hchain
    exact ⟨hruns, hruns.isCycle_iff⟩

/-- A function `entry` that delegates to `ping`, and `ping` and `pong`, which delegate to each
other. -/
def roundabout : Template where
  functions := [("entry", "ping"), ("ping", "pong"), ("pong", "ping")].map fun (name, callee) =>
    ⟨{ name, body := some [.mk (.ret (some (.call (.static "static" callee) []))) [] []] }⟩
  combinators := {}
  nodup := by decide

/-- The chain from `entry` is no circle, as `entry` does not lie on one. That from `ping` is. -/
theorem cyclic_answers_iff_roundabout :
    (Memo.answers roundabout {} ["entry", "ping"]).1 =
        [.error (.cyclicDelegation ["entry", "ping", "pong", "ping"]),
          .error (.cyclicDelegation ["ping", "pong", "ping"])] ∧
      ¬ roundabout.IsCycle ["entry", "ping", "pong", "ping"] ∧
      ¬ TransGen roundabout.DelegatesTo "entry" "entry" ∧
      roundabout.IsCycle ["ping", "pong", "ping"] := by
  have hanswers : (Memo.answers roundabout {} ["entry", "ping"]).1 =
      [.error (.cyclicDelegation ["entry", "ping", "pong", "ping"]),
        .error (.cyclicDelegation ["ping", "pong", "ping"])] := by
    decide +kernel
  have hall := cyclic_answers_iff roundabout ["entry", "ping"]
  rw [hanswers] at hall
  obtain ⟨hentry, hall⟩ := List.forall₂_cons.1 hall
  obtain ⟨hping, -⟩ := List.forall₂_cons.1 hall
  have hopen : ¬ roundabout.IsCycle ["entry", "ping", "pong", "ping"] := by
    rintro ⟨⟨first, others, hclosed⟩, -, -⟩
    obtain rfl : "entry" = first := Option.some.inj (congrArg List.head? hclosed)
    have hlast := congrArg List.getLast? hclosed
    rw [← List.cons_append, List.getLast?_concat] at hlast
    exact absurd (Option.some.inj hlast) (by decide)
  refine ⟨hanswers, hopen, ?_, ?_⟩
  · rwa [← (hentry.2 _ rfl).2]
  · have hruns := (hping.2 _ rfl).1
    exact ⟨⟨"ping", ["pong"], rfl⟩, hruns.nodup, hruns.delegates⟩

end CurryGen.Template

import CurryGen.Yaml.Written

/-!
# YAML nodes

The tree that a text stands for: a written tree with every alias replaced by the node it stands for,
which is the last one that is anchored in its slot, before or after the alias.

* `Written.expand?`: replacing the aliases.
* `Node.read?`: the node of a text.
-/

namespace CurryGen.Yaml

inductive Node where
  /-- A scalar; `plain` scalars may spell other values than texts. -/
  | scalar (text : String) (plain : Bool) (tag : Option String)
  | sequence (items : List Node)
  | mapping (entries : List (Node × Node))
deriving Inhabited

/-! ## Replacing aliases -/

/-- An action that replaces aliases, or fails. The state is the number of aliases that may still be
replaced. -/
abbrev Expansion := StateT Nat Option

/-- Counts the replacement of an alias. -/
def spend : Expansion Unit := do
  match ← get with
  | 0 => failure
  | n + 1 => set n

theorem length_filter_lt_of_lookup {known : List (Nat × Written)} {slot : Nat} {node : Written}
    (h : known.lookup slot = some node) :
    (known.filter (·.1 != slot)).length < known.length := by
  induction known with
  | nil => simp at h
  | cons entry known ih =>
    obtain ⟨s, w⟩ := entry
    by_cases hs : slot = s
    · have := List.length_filter_le (fun e : Nat × Written => e.1 != slot) known
      simp only [hs, bne_self_eq_false, Bool.false_eq_true, not_false_eq_true,
        List.filter_cons_of_neg, List.length_cons] at this ⊢
      omega
    · have hkeep : (s != slot) = true := by simpa using Ne.symm hs
      rw [List.lookup_cons, show (slot == s) = false by simpa using hs] at h
      simpa only [List.filter_cons, hkeep, if_true, List.length_cons, Nat.add_lt_add_iff_right]
        using ih h

namespace Written

mutual

/-- The node that a written node stands for; `known` are the anchored nodes by their slots. A node
does not hold itself, so an alias inside what its slot stands for is an error. -/
def expand? (known : List (Nat × Written)) : Written → Expansion Node
  | .scalar text plain tag => return .scalar text plain tag
  | .sequence items => return .sequence (← expandItems? known items)
  | .mapping entries => return .mapping (← expandEntries? known entries)
  | .anchored _ node => expand? known node
  | .reference slot => do
    spend
    match _h : known.lookup slot with
    | some node => expand? (known.filter (·.1 != slot)) node
    | none => failure
termination_by w => (known.length, sizeOf w)
decreasing_by
  · exact Prod.Lex.right _ (by simp)
  · exact Prod.Lex.right _ (by simp)
  · exact Prod.Lex.right _ (by simp only [anchored.sizeOf_spec]; omega)
  · exact Prod.Lex.left _ _ (length_filter_lt_of_lookup _h)

def expandItems? (known : List (Nat × Written)) : List Written → Expansion (List Node)
  | [] => return []
  | item :: items => return (← expand? known item) :: (← expandItems? known items)
termination_by ws => (known.length, sizeOf ws)
decreasing_by all_goals exact Prod.Lex.right _ (by simp <;> omega)

def expandEntries? (known : List (Nat × Written)) :
    List (Written × Written) → Expansion (List (Node × Node))
  | [] => return []
  | (key, value) :: entries => do
    let key ← expand? known key
    let value ← expand? known value
    return (key, value) :: (← expandEntries? known entries)
termination_by ws => (known.length, sizeOf ws)
decreasing_by all_goals exact Prod.Lex.right _ (by simp <;> omega)

end

/-- The number of aliases that may be replaced for each mark of a document. -/
def maxReplacements : Nat := 100

/-- The node that the root of a document stands for. -/
def toNode? (root : Written) : Option Node :=
  ((expand? root.anchors.reverse root).run (maxReplacements * root.marks)).map (·.1)

end Written

/-- The root of the only document of a text, or of none if it has no content. -/
def Node.read? (text : String) : Option (Option Node) :=
  match (Token.ofText? text).bind Written.ofTokens? with
  | some (some root) => root.toNode?.map some
  | some none => some none
  | none => none

end CurryGen.Yaml

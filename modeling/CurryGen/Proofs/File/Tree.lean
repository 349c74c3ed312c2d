import CurryGen.File.Tree

/-!
# File trees under the file operations

What each operation does to the entries of a tree, location by location.

* `FileTree.destination`: where a path leads by its steps alone. A path that can be followed leads
  there (`follow_eq_ok`, `followTarget_eq_ok`).
* `FileTree.Keeps`: the working directory and all directories of a tree are still there in a later
  one. Then a path that could be followed can be followed still (`Keeps.follow`).
* `FileTree.Makes`: a tree after directories were made; `makes_makeDirectories`.
* `write_eq_ok`, `rename_eq_ok`: what is known after a file was written or moved.
* `entry?_removeAll_eq_some_iff`: what is left when all at a path is removed.
-/

namespace CurryGen.FileTree

variable {t t' : FileTree} {p : Path} {k l : Location}

/-! ## Entries -/

@[simp] theorem entry?_nil (t : FileTree) : t.entry? [] = some .directory := rfl

/-- A key is looked up among the entries of the keys that satisfy `q`. -/
theorem lookup_filter_fst {α β : Type} [BEq α] [LawfulBEq α] (q : α → Bool) (xs : List (α × β))
    (k : α) : (xs.filter fun x => q x.1).lookup k = if q k then xs.lookup k else none := by
  induction xs with
  | nil => simp
  | cons x xs ih =>
    obtain ⟨a, b⟩ := x
    rw [List.filter_cons, List.lookup_cons]
    by_cases hka : k = a
    · subst hka
      cases hq : q k with
      | true => simp
      | false => simp [ih, hq]
    · have hne : (k == a) = false := beq_eq_false_iff_ne.mpr hka
      rw [hne, ← ih]
      split
      · rw [List.lookup_cons, hne]
      · rfl

/-- Only the root is a directory that is no entry. -/
theorem ne_nil_of_ne_directory (h : t.entry? l ≠ some .directory) : l ≠ [] := fun hl => h (by simp [hl])

theorem entry?_put (hl : l ≠ []) (e : FileEntry) (k : Location) :
    entry? (t.put l e) k = if k = l then some e else t.entry? k := by
  by_cases hk : k = []
  · subst hk
    simp [Ne.symm hl]
  · simp only [put, entry?, hk, if_false, List.lookup_cons, lookup_filter_fst (· != l)]
    by_cases hkl : k = l
    · simp [hkl]
    · simp [hkl, beq_eq_false_iff_ne.mpr hkl]

theorem entry?_erase (hl : l ≠ []) (k : Location) :
    entry? (t.erase l) k = if k = l then none else t.entry? k := by
  by_cases hk : k = []
  · subst hk
    simp [Ne.symm hl]
  · simp only [erase, entry?, hk, if_false, lookup_filter_fst (· != l)]
    by_cases hkl : k = l <;> simp [hkl]

theorem entry?_eraseAll (hl : l ≠ []) (k : Location) :
    entry? (t.eraseAll l) k = if l <+: k then none else t.entry? k := by
  by_cases hk : k = []
  · subst hk
    simp [hl]
  · simp only [eraseAll, entry?, hk, if_false, lookup_filter_fst (!l.isPrefixOf ·)]
    by_cases hkl : l <+: k
    · simp [hkl, List.isPrefixOf_iff_prefix.mpr hkl]
    · simp [hkl, mt List.isPrefixOf_iff_prefix.mp hkl]

@[simp] theorem home_put (t : FileTree) (l : Location) (e : FileEntry) :
    (t.put l e).home = t.home := rfl

@[simp] theorem home_erase (t : FileTree) (l : Location) : (t.erase l).home = t.home := rfl

/-! ## Where a path leads -/

/-- The location that a path leads to by its steps, whatever stands on the way. -/
def destination (t : FileTree) (p : Path) : Location := (steps p).foldl step (t.start p)

/-- The locations that steps lead to one after another. -/
def visited (l : Location) : List String → List Location
  | [] => []
  | name :: names => step l name :: visited (step l name) names

/-- The locations on the way to the directory that holds a path, that directory included. -/
def way (t : FileTree) (p : Path) : List Location :=
  match p.parent? with
  | some parent => visited (t.start parent) (steps parent)
  | none => []

theorem start_congr (h : t'.home = t.home) (p : Path) : t'.start p = t.start p := by
  simp only [start, h]

theorem destination_congr (h : t'.home = t.home) (p : Path) : t'.destination p = t.destination p := by
  simp only [destination, start_congr h]

theorem way_congr (h : t'.home = t.home) (p : Path) : t'.way p = t.way p := by
  simp only [way, start_congr h]

theorem followFrom_eq_ok {names : List String} (h : t.followFrom k names = .ok l) :
    l = names.foldl step k := by
  induction names generalizing k with
  | nil => exact (Except.ok.inj h).symm
  | cons name names ih =>
    simp only [followFrom] at h
    split at h
    · cases h
    · cases h
    · exact ih h

theorem follow_eq_ok (h : t.follow p = .ok l) : l = t.destination p := by
  unfold follow at h
  split at h
  · cases h
  · exact followFrom_eq_ok h

/-- A target that is named as a file has no slash at its end. -/
theorem targetSteps_eq (h : targetFault? p = none) : targetSteps p = steps p := by
  have hlast : (steps p).getLast? ≠ some "" := by
    unfold targetFault? at h
    split at h
    · cases h
    · cases h
    · split at h
      · cases h
      · assumption
  unfold targetSteps
  rw [List.getLast?_eq_head?_reverse] at hlast
  cases hr : (steps p).reverse with
  | nil => exact (List.reverse_eq_nil_iff.mp hr).symm
  | cons last rest =>
    rw [hr] at hlast
    have hne : (last == "") = false := by simpa using hlast
    rw [List.dropWhile_cons_of_neg (by simp [hne]), ← hr, List.reverse_reverse]

/-- A target that is named as a file is followed as any path is. -/
theorem followTarget_eq (h : targetFault? p = none) : t.followTarget p = t.follow p := by
  simp only [followTarget, follow, targetSteps_eq h]

/-! ## Directories that stay -/

/-- The working directory of `t` is that of `t'`, and its directories are directories of `t'`. -/
structure Keeps (t t' : FileTree) : Prop where
  home : t'.home = t.home
  directory : ∀ l, t.entry? l = some .directory → t'.entry? l = some .directory

theorem Keeps.refl (t : FileTree) : t.Keeps t := ⟨rfl, fun _ h => h⟩

theorem Keeps.trans {t'' : FileTree} (h : t.Keeps t') (h' : t'.Keeps t'') : t.Keeps t'' :=
  ⟨h'.home.trans h.home, fun l hl => h'.directory l (h.directory l hl)⟩

theorem Keeps.followFrom (h : t.Keeps t') {names : List String} (hf : t.followFrom k names = .ok l) :
    t'.followFrom k names = .ok l := by
  induction names generalizing k with
  | nil => exact hf
  | cons name names ih =>
    simp only [FileTree.followFrom] at hf ⊢
    cases hk : t.entry? k with
    | none => simp [hk] at hf
    | some e =>
      cases e with
      | file contents => simp [hk] at hf
      | directory =>
        rw [hk] at hf
        rw [h.directory k hk]
        exact ih hf

theorem Keeps.follow (h : t.Keeps t') (hf : t.follow p = .ok l) : t'.follow p = .ok l := by
  unfold FileTree.follow at hf ⊢
  split at hf
  · cases hf
  · rename_i hp
    rw [if_neg hp, start_congr h.home]
    exact h.followFrom hf

/-! ## Making directories -/

/-- `t'` is `t` with directories made at some of the locations `ls`, where nothing stood. -/
structure Makes (t t' : FileTree) (ls : List Location) : Prop where
  home : t'.home = t.home
  entry : ∀ k, t'.entry? k = t.entry? k ∨
    t.entry? k = none ∧ t'.entry? k = some .directory ∧ k ∈ ls

theorem Makes.refl (t : FileTree) (ls : List Location) : t.Makes t ls := ⟨rfl, fun _ => .inl rfl⟩

theorem Makes.keeps {ls : List Location} (h : t.Makes t' ls) : t.Keeps t' where
  home := h.home
  directory l hl := by
    rcases h.entry l with he | ⟨hn, -, -⟩
    · exact he.trans hl
    · rw [hl] at hn
      cases hn

theorem Makes.mono {ls ls' : List Location} (h : t.Makes t' ls) (hs : ls ⊆ ls') : t.Makes t' ls' :=
  ⟨h.home, fun k => (h.entry k).imp_right fun ⟨hn, hd, hk⟩ => ⟨hn, hd, hs hk⟩⟩

/-- A directory made where nothing stood, and others after it. -/
theorem Makes.put {ls : List Location} (hl : t.entry? l = none)
    (h : (t.put l .directory).Makes t' ls) : t.Makes t' (l :: ls) where
  home := h.home
  entry k := by
    have hne : t.entry? l ≠ some .directory := by simp [hl]
    have hput := entry?_put (t := t) (ne_nil_of_ne_directory hne) .directory k
    by_cases hkl : k = l
    · subst hkl
      rw [if_pos rfl] at hput
      exact .inr ⟨hl, h.keeps.directory k hput, List.mem_cons_self⟩
    · rw [if_neg hkl] at hput
      rw [← hput]
      exact (h.entry k).imp_right fun ⟨hn, hd, hk⟩ => ⟨hn, hd, List.mem_cons_of_mem l hk⟩

theorem makes_makeFrom (t : FileTree) (made : Bool) (l : Location) (names : List String) :
    t.Makes (t.makeFrom made l names).2 (visited l names) := by
  induction names generalizing t made l with
  | nil => exact .refl t _
  | cons name names ih =>
    simp only [makeFrom, visited]
    cases h : t.entry? (step l name) with
    | none => exact .put h (ih _ _ _)
    | some e =>
      cases e with
      | file contents => exact .refl t _
      | directory => exact (ih t made (step l name)).mono (List.subset_cons_self _ _)

theorem makes_makeDirectories (t : FileTree) (p : Path) :
    t.Makes (t.makeDirectories p).2 (visited (t.start p) (steps p)) := by
  unfold makeDirectories
  split
  · exact .refl t _
  · exact makes_makeFrom t false (t.start p) (steps p)

/-! ## Reading, writing and moving -/

theorem read_eq_ok_iff {contents : String} : t.read p = .ok contents ↔
    t.follow p = .ok (t.destination p) ∧ t.entry? (t.destination p) = some (.file contents) := by
  unfold read
  cases h : t.follow p with
  | error fault => simp
  | ok l =>
    obtain rfl := follow_eq_ok h
    cases he : t.entry? (t.destination p) with
    | none => simp [he]
    | some e => cases e <;> simp [he]

/-- A file that is read is read still where its directories are kept and it is the same. -/
theorem Keeps.read {contents : String} (h : t.Keeps t') (hr : t.read p = .ok contents)
    (he : t'.entry? (t.destination p) = t.entry? (t.destination p)) : t'.read p = .ok contents := by
  obtain ⟨hf, hc⟩ := read_eq_ok_iff.mp hr
  rw [read_eq_ok_iff, destination_congr h.home]
  exact ⟨h.follow hf, he.trans hc⟩

/-- What is known after a file was written. -/
theorem write_eq_ok {contents : String} (h : t.write p contents = (.ok (), t')) :
    t.entry? (t.destination p) ≠ some .directory ∧ t'.home = t.home ∧
      ∀ k, t'.entry? k = if k = t.destination p then some (.file contents) else t.entry? k := by
  unfold write at h
  split at h
  · cases h
  · rename_i l hl
    obtain rfl := follow_eq_ok hl
    split at h
    · cases h
    · rename_i hne
      obtain rfl := (Prod.ext_iff.mp h).2
      exact ⟨hne, rfl, entry?_put (ne_nil_of_ne_directory hne) _⟩

/-- What is known after a file, and no directory, was moved. -/
theorem rename_eq_ok {q : Path} (h : t.rename p q = (.ok (), t'))
    (hp : t.entry? (t.destination p) ≠ some .directory) :
    t.follow q = .ok (t.destination q) ∧ t.entry? (t.destination q) ≠ some .directory ∧
      t'.home = t.home ∧ ∀ k, t'.entry? k =
        if k = t.destination q then t.entry? (t.destination p)
        else if k = t.destination p then none else t.entry? k := by
  unfold rename at h
  split at h
  · cases h
  · cases h
  · rename_i l l' hl hl'
    obtain rfl := follow_eq_ok hl
    split at h
    · cases h
    · cases h
    · cases h
    · rename_i e he hfault hne
      rw [followTarget_eq hfault] at hl'
      obtain rfl := follow_eq_ok hl'
      obtain rfl := (Prod.ext_iff.mp h).2
      refine ⟨hl', hne, by split <;> rfl, fun k => ?_⟩
      dsimp only
      split
      · -- The file is where it is to go: the tree is as it was.
        rename_i heq
        rw [← heq]
        split
        · rename_i hk
          rw [hk]
        · rfl
      · rw [entry?_put (ne_nil_of_ne_directory hne), entry?_erase (ne_nil_of_ne_directory hp), he]

/-- Removing all at a path leaves what is neither there nor below it, and everything where the path
leads nowhere. -/
theorem entry?_removeAll_eq_some_iff (hp : t.destination p ≠ []) {e : FileEntry} :
    entry? (t.removeAll p) k = some e ↔
      t.entry? k = some e ∧ ∀ l, t.follow p = .ok l → ¬ l <+: k := by
  unfold removeAll
  cases h : t.follow p with
  | error fault => simp
  | ok l =>
    obtain rfl := follow_eq_ok h
    simp only [entry?_eraseAll hp, Except.ok.injEq, forall_eq']
    by_cases hk : t.destination p <+: k <;> simp [hk]

end CurryGen.FileTree

import CurryGen.File.Access
import CurryGen.Proofs.File.Tree

/-!
# Writing files of a tree

The file operations of `File/Access.lean` on file trees, and what a file written by way of a
temporary one leaves behind.

* `runOn`: an operation on a tree as a function; `runOn_bind_eq_ok` takes a success apart.
* `Written`: all that a successful `writeAtomic` does. The path holds the contents, nothing stands
  where the temporary file was, and elsewhere only directories on the way are new
  (`written_writeAtomic`).
* `WrittenAll`: such writes one after another. `WrittenAll.other` and `WrittenAll.not_file` follow
  one location through them, and `WrittenAll.read_and_held_iff` says when all paths hold their
  contents at the end and nothing else is touched: the temporary files need room (`RoomFor`).
-/

namespace CurryGen

/-- What an operation gives on a file tree, and the tree after it. -/
def runOn {α : Type} (x : ExceptT Error (StateM FileTree) α) (t : FileTree) :
    Except Error α × FileTree :=
  x.run.run t

section Run

variable {α β : Type} {t t' : FileTree}

@[simp] theorem runOn_pure (a : α) (t : FileTree) :
    runOn (pure a) t = (.ok a, t) := rfl

@[simp] theorem runOn_throw (e : Error) (t : FileTree) :
    runOn (throw e : ExceptT Error (StateM FileTree) α) t = (.error e, t) := rfl

@[simp] theorem runOn_mk_pure (r : Except Error α) (t : FileTree) :
    runOn (ExceptT.mk (pure r)) t = (r, t) := rfl

theorem runOn_bind (x : ExceptT Error (StateM FileTree) α)
    (f : α → ExceptT Error (StateM FileTree) β) (t : FileTree) :
    runOn (x >>= f) t = match runOn x t with
      | (.ok a, t') => runOn (f a) t'
      | (.error e, t') => (.error e, t') := by
  simp only [runOn, ExceptT.run_bind, StateT.run_bind]
  rcases x.run.run t with ⟨_ | _, _⟩ <;> rfl

theorem runOn_map (x : ExceptT Error (StateM FileTree) α) (f : α → β) (t : FileTree) :
    runOn (f <$> x) t = ((runOn x t).1.map f, (runOn x t).2) := by
  simp only [runOn, ExceptT.run_map, StateT.run_map]
  rfl

theorem runOn_bind_eq_ok {x : ExceptT Error (StateM FileTree) α}
    {f : α → ExceptT Error (StateM FileTree) β} {b : β} (h : runOn (x >>= f) t = (.ok b, t')) :
    ∃ a t₁, runOn x t = (.ok a, t₁) ∧ runOn (f a) t₁ = (.ok b, t') := by
  rw [runOn_bind] at h
  split at h
  · exact ⟨_, _, ‹_›, h⟩
  · cases h

@[simp] theorem runOn_read (p : Path) (t : FileTree) :
    runOn (liftM (FileAccess.read p : StateM FileTree (Except FileFault String))) t =
      (.ok (t.read p), t) := rfl

theorem runOn_attempt (p : Path) (operation : StateM FileTree (Except FileFault α)) (t : FileTree) :
    runOn (attempt p operation) t =
      ((operation t).1.mapError (Error.file p), (operation t).2) := rfl

theorem runOn_attempt_eq_ok {p : Path} {operation : StateM FileTree (Except FileFault α)} {a : α}
    (h : runOn (attempt p operation) t = (.ok a, t')) : operation t = (.ok a, t') := by
  rw [runOn_attempt] at h
  obtain ⟨h, rfl⟩ := Prod.ext_iff.mp h
  refine Prod.ext ?_ rfl
  cases ho : (operation t).1 with
  | error fault =>
    rw [ho] at h
    cases h
  | ok b =>
    rw [ho] at h
    cases h
    rfl

end Run

/-- The path of the temporary file for a path. -/
def Path.temporary (p : Path) : Path := p.withExtension temporaryExtension

namespace FileTree

variable {t t' : FileTree} {p q : Path} {contents : String}

theorem makes_makeParent (t : FileTree) (p : Path) :
    t.Makes (runOn (makeParent p) t).2 (t.way p) := by
  unfold makeParent way
  cases p.parent? with
  | none => exact .refl t _
  | some parent =>
    dsimp only
    split
    · exact .refl t _
    · exact makes_makeDirectories t parent

theorem runOn_moveInto_eq_ok (h : runOn (moveInto p q) t = (.ok (), t')) :
    t.rename p q = (.ok (), t') := by
  rcases hr : t.rename p q with ⟨r, t₁⟩
  have hrun : StateT.run (FileAccess.rename (m := StateM FileTree) p q) t = (r, t₁) := hr
  simp only [moveInto, runOn, ExceptT.run_mk, StateT.run_bind, hrun] at h
  cases r with
  | ok u =>
    have ht : t₁ = t' := (Prod.ext_iff.mp h).2
    rw [ht]
  | error fault => cases (Prod.ext_iff.mp h).1

/-- What is known of a tree `t'` after `contents` were written at `p` in `t`. -/
structure Written (t t' : FileTree) (p : Path) (contents : String) : Prop where
  home : t'.home = t.home
  reached : t'.follow p = .ok (t.destination p)
  file : t'.entry? (t.destination p) = some (.file contents)
  /-- Neither the path nor its temporary file is a directory. -/
  free : t.entry? (t.destination p) ≠ some .directory ∧
    t.entry? (t.destination p.temporary) ≠ some .directory
  moved : t.destination p.temporary ≠ t.destination p →
    t'.entry? (t.destination p.temporary) = none
  other : ∀ k, k ≠ t.destination p → k ≠ t.destination p.temporary →
    t'.entry? k = t.entry? k ∨ t.entry? k = none ∧ t'.entry? k = some .directory ∧ k ∈ t.way p

theorem Written.keeps (h : t.Written t' p contents) : t.Keeps t' where
  home := h.home
  directory l hl := by
    have hp : l ≠ t.destination p := fun e => h.free.1 (e ▸ hl)
    have htmp : l ≠ t.destination p.temporary := fun e => h.free.2 (e ▸ hl)
    rcases h.other l hp htmp with he | ⟨hn, -, -⟩
    · exact he.trans hl
    · rw [hl] at hn
      cases hn

theorem Makes.ne_directory {ls : List Location} {k : Location} (h : t.Makes t' ls)
    (hk : t'.entry? k ≠ some .directory) : t.entry? k ≠ some .directory :=
  fun hd => hk (h.keeps.directory k hd)

/-- A file that was written at `p.temporary` and moved to `p`, once the directories are there. -/
theorem written_of_rename {t₁ t₂ : FileTree} (hmade : t.Makes t₁ (t.way p))
    (hw : t₁.write p.temporary contents = (.ok (), t₂)) (hr : t₂.rename p.temporary p = (.ok (), t')) :
    t.Written t' p contents := by
  obtain ⟨hfree, hhome₂, hentry₂⟩ := write_eq_ok hw
  have hdest₁ := destination_congr hmade.home
  have hdest₂ := destination_congr (hhome₂.trans hmade.home)
  rw [hdest₁] at hfree hentry₂
  have htmp : t₂.entry? (t₂.destination p.temporary) = some (.file contents) := by
    rw [hdest₂, hentry₂, if_pos rfl]
  obtain ⟨hreach, hne, hhome, hentry⟩ := rename_eq_ok hr (by simp [htmp])
  rw [htmp] at hentry
  rw [hdest₂] at hreach hne hentry
  rw [hdest₂] at hentry
  -- Nothing that is moved or replaced is a directory, so the path can be followed as before.
  have hkeeps : t₂.Keeps t' := by
    refine ⟨hhome, fun l hl => ?_⟩
    have hlp : l ≠ t.destination p := fun e => hne (e ▸ hl)
    have hltmp : l ≠ t.destination p.temporary := by
      rintro rfl
      rw [hdest₂, hl] at htmp
      cases htmp
    rw [hentry, if_neg hlp, if_neg hltmp, hl]
  have hp : t₁.entry? (t.destination p) ≠ some .directory := by
    intro hd
    rw [hentry₂] at hne
    split at hne
    · rename_i heq
      exact hfree (heq ▸ hd)
    · exact hne hd
  exact {
    home := hhome.trans (hhome₂.trans hmade.home)
    reached := hkeeps.follow hreach
    file := by rw [hentry, if_pos rfl]
    free := ⟨hmade.ne_directory hp, hmade.ne_directory hfree⟩
    moved := fun hne => by rw [hentry, if_neg hne, if_pos rfl]
    other := fun k hk hktmp => by
      rw [hentry, if_neg hk, if_neg hktmp, hentry₂, if_neg hktmp]
      exact hmade.entry k }

theorem written_writeAtomic (h : runOn (writeAtomic p contents) t = (.ok (), t')) :
    t.Written t' p contents := by
  obtain ⟨⟨⟩, t₁, hparent, h⟩ := runOn_bind_eq_ok h
  obtain ⟨⟨⟩, t₂, hwrite, h⟩ := runOn_bind_eq_ok h
  have hmade : t.Makes t₁ (t.way p) := by
    have := makes_makeParent t p
    rwa [hparent] at this
  exact written_of_rename hmade (runOn_attempt_eq_ok hwrite) (runOn_moveInto_eq_ok h)

/-! ## Files written one after another -/

/-- Files are written one after another, and lead from one tree to another. -/
inductive WrittenAll : FileTree → List (Path × String) → FileTree → Prop
  | nil (t : FileTree) : WrittenAll t [] t
  | cons {t t₁ t' : FileTree} {p : Path} {contents : String} {files : List (Path × String)} :
    t.Written t₁ p contents → WrittenAll t₁ files t' → WrittenAll t ((p, contents) :: files) t'

/-- Whether `t'` holds what `t` holds, but at these paths and where directories were made on the way
to them. -/
def HeldBut (t t' : FileTree) (paths : List Path) : Prop :=
  ∀ l, (∀ p ∈ paths, t.destination p ≠ l) → t'.entry? l = t.entry? l ∨
    t.entry? l = none ∧ t'.entry? l = some .directory ∧ ∃ p ∈ paths, l ∈ t.way p

/-- Whether the temporary files of paths that are written in this order can do no harm: none takes
the place of a file that was written before, and each takes an empty place or that of one of the
paths. -/
structure RoomFor (t : FileTree) (paths : List Path) : Prop where
  later : paths.Pairwise fun p q => t.destination q.temporary ≠ t.destination p
  free : ∀ p ∈ paths, t.entry? (t.destination p.temporary) = none ∨
    ∃ q ∈ paths, t.destination q = t.destination p.temporary

section WrittenAll

variable {files : List (Path × String)} {k : Location}

theorem WrittenAll.keeps (h : WrittenAll t files t') : t.Keeps t' := by
  induction h with
  | nil t => exact .refl t
  | cons hw _ ih => exact hw.keeps.trans ih

/-- A temporary file never is where a directory was. -/
theorem WrittenAll.free (h : WrittenAll t files t') :
    ∀ f ∈ files, t.entry? (t.destination f.1.temporary) ≠ some .directory := by
  induction h with
  | nil t => simp
  | cons hw _ ih =>
    intro f hf
    rcases List.mem_cons.mp hf with rfl | hf
    · exact hw.free.2
    · intro hd
      refine ih f hf ?_
      rw [destination_congr hw.home]
      exact hw.keeps.directory _ hd

/-- A location that is none of the paths, and where every temporary file finds nothing, is as it was
or is a new directory. -/
theorem WrittenAll.other (h : WrittenAll t files t') (hk : ∀ f ∈ files, t.destination f.1 ≠ k)
    (htmp : ∀ f ∈ files, t.destination f.1.temporary = k → t.entry? k = none) :
    t'.entry? k = t.entry? k ∨
      t.entry? k = none ∧ t'.entry? k = some .directory ∧ ∃ f ∈ files, k ∈ t.way f.1 := by
  induction h with
  | nil t => exact .inl rfl
  | @cons t t₁ t' p contents files hw hall ih =>
    have hfree := hall.free
    simp only [destination_congr hw.home, way_congr hw.home] at ih hfree
    -- What the first file does at `k`.
    have hfirst : t₁.entry? k = t.entry? k ∨
        t.entry? k = none ∧ t₁.entry? k = some .directory ∧ k ∈ t.way p := by
      by_cases hp : t.destination p.temporary = k
      · have hmoved := hw.moved (hp ▸ (hk (p, contents) List.mem_cons_self).symm)
        rw [hp] at hmoved
        exact .inl (hmoved.trans (htmp (p, contents) List.mem_cons_self hp).symm)
      · exact hw.other k (hk (p, contents) List.mem_cons_self).symm (Ne.symm hp)
    rcases hfirst with he | ⟨hn, hd, hway⟩
    · rcases ih (fun f hf => hk f (List.mem_cons_of_mem _ hf))
        (fun f hf hf' => he.trans (htmp f (List.mem_cons_of_mem _ hf) hf')) with
        he' | ⟨hn, hd, f, hf, hway⟩
      · exact .inl (he'.trans he)
      · exact .inr ⟨he.symm.trans hn, hd, f, List.mem_cons_of_mem _ hf, hway⟩
    · exact .inr ⟨hn, hall.keeps.directory k hd, _, List.mem_cons_self, hway⟩

/-- Where a temporary file was, and where no file was, there is none at the end, unless it is the
place of one of the paths. -/
theorem WrittenAll.not_file (h : WrittenAll t files t') (hk : ∀ f ∈ files, t.destination f.1 ≠ k)
    (hfile : (∀ s, t.entry? k ≠ some (.file s)) ∨ ∃ f ∈ files, t.destination f.1.temporary = k) :
    ∀ s, t'.entry? k ≠ some (.file s) := by
  induction h with
  | nil t => simpa using hfile
  | @cons t t₁ t' p contents files hw hall ih =>
    simp only [destination_congr hw.home] at ih
    refine ih (fun f hf => hk f (List.mem_cons_of_mem _ hf)) ?_
    have hkp := hk (p, contents) List.mem_cons_self
    by_cases hp : t.destination p.temporary = k
    · have hmoved := hw.moved (hp ▸ hkp.symm)
      rw [hp] at hmoved
      simp [hmoved]
    rcases hfile with hfile | ⟨f, hf, hfk⟩
    · rcases hw.other k hkp.symm (Ne.symm hp) with he | ⟨-, hd, -⟩
      · exact .inl (he ▸ hfile)
      · simp [hd]
    · rcases List.mem_cons.mp hf with rfl | hf
      · exact absurd hfk hp
      · exact .inr ⟨f, hf, hfk⟩

/-- A file that was written can be read at the end unless a later temporary file takes its place. -/
theorem WrittenAll.read_iff {t₁ : FileTree} (hw : t.Written t₁ p contents)
    (h : WrittenAll t₁ files t') (hdistinct : ∀ f ∈ files, t.destination p ≠ t.destination f.1) :
    t'.read p = .ok contents ↔ ∀ f ∈ files, t.destination f.1.temporary ≠ t.destination p := by
  have hne : ∀ f ∈ files, t₁.destination f.1 ≠ t.destination p := fun f hf => by
    rw [destination_congr hw.home]
    exact (hdistinct f hf).symm
  have htmp : ∀ f : Path × String, t₁.destination f.1.temporary = t.destination f.1.temporary :=
    fun f => destination_congr hw.home _
  rw [read_eq_ok_iff, destination_congr h.keeps.home, destination_congr hw.home]
  constructor
  · rintro ⟨-, hfile⟩ f hf hfp
    exact h.not_file hne (.inr ⟨f, hf, (htmp f).trans hfp⟩) contents hfile
  · intro hlater
    refine ⟨h.keeps.follow hw.reached, ?_⟩
    rcases h.other hne (fun f hf hfp => absurd ((htmp f).symm.trans hfp) (hlater f hf)) with
      he | ⟨hn, -, -⟩
    · exact he.trans hw.file
    · rw [hw.file] at hn
      cases hn

/-- All files can be read at the end iff no temporary file takes the place of an earlier one. -/
theorem WrittenAll.reads_iff (h : WrittenAll t files t')
    (hdistinct : files.Pairwise fun f g => t.destination f.1 ≠ t.destination g.1) :
    (∀ f ∈ files, t'.read f.1 = .ok f.2) ↔
      files.Pairwise fun f g => t.destination g.1.temporary ≠ t.destination f.1 := by
  induction h with
  | nil t => simp
  | @cons t t₁ t' p contents files hw hall ih =>
    obtain ⟨hfirst, hrest⟩ := List.pairwise_cons.mp hdistinct
    simp only [destination_congr hw.home] at ih
    rw [List.forall_mem_cons, List.pairwise_cons, ih hrest]
    exact and_congr_left' (hall.read_iff hw hfirst)

/-- All files can be read at the end, and all else is as it was, iff there is room for the temporary
files. -/
theorem WrittenAll.read_and_held_iff (h : WrittenAll t files t')
    (hdistinct : files.Pairwise fun f g => t.destination f.1 ≠ t.destination g.1) :
    ((∀ f ∈ files, t'.read f.1 = .ok f.2) ∧ t.HeldBut t' (files.map Prod.fst)) ↔
      t.RoomFor (files.map Prod.fst) := by
  rw [h.reads_iff hdistinct]
  constructor
  · rintro ⟨hlater, hheld⟩
    refine ⟨List.pairwise_map.mpr hlater, List.forall_mem_map.mpr fun f hf => ?_⟩
    by_cases hpath : ∃ g ∈ files, t.destination g.1 = t.destination f.1.temporary
    · obtain ⟨g, hg, hgf⟩ := hpath
      exact .inr ⟨g.1, List.mem_map_of_mem hg, hgf⟩
    · simp only [not_exists, not_and] at hpath
      -- The place is a file's at no time after the move, and was no directory's before it.
      have hnot := h.not_file hpath (.inr ⟨f, hf, rfl⟩)
      rcases hheld _ (List.forall_mem_map.mpr hpath) with he | ⟨hn, -, -⟩
      · left
        cases hk : t.entry? (t.destination f.1.temporary) with
        | none => rfl
        | some e =>
          cases e with
          | file s => exact absurd (he.trans hk) (hnot s)
          | directory => exact absurd hk (h.free f hf)
      · exact .inl hn
  · rintro ⟨hlater, hfree⟩
    refine ⟨List.pairwise_map.mp hlater, fun l hl => ?_⟩
    have hl' : ∀ f ∈ files, t.destination f.1 ≠ l := fun f hf => hl f.1 (List.mem_map_of_mem hf)
    have htmp : ∀ f ∈ files, t.destination f.1.temporary = l → t.entry? l = none := by
      intro f hf hfl
      rcases hfree f.1 (List.mem_map_of_mem hf) with hn | ⟨q, hq, hqf⟩
      · exact hfl ▸ hn
      · exact absurd (hqf.trans hfl) (hl q hq)
    rcases h.other hl' htmp with he | ⟨hn, hd, f, hf, hway⟩
    · exact .inl he
    · exact .inr ⟨hn, hd, f.1, List.mem_map_of_mem hf, hway⟩

end WrittenAll

end FileTree

end CurryGen

import CurryGen.Project.Generate
import CurryGen.Proofs.File.Access
import CurryGen.Proofs.Tree.Source

/-!
# Generating into a file tree

What `Config.generate` does to a file tree, and what `Config.check` finds after it.

* `Reads`: an operation that reads some paths and changes nothing. Reading a project is one, of the
  files that the configuration names (`reads_render`); so a failure to render leaves the tree as it
  was.
* `writtenAll_writeAll`: the artifacts are written one after another, as `WrittenAll` has it.
* `isClean_compareAll_iff`: the comparison is clean iff each path holds its artifact.
* `generate_clean_iff`: a success is followed by a clean check, and leaves all else as it was, iff
  there is room for the temporary files.
-/

namespace CurryGen

variable {α β : Type} {t t' : FileTree}

/-! ## Reading without changing -/

/-- An operation reads these paths, changes nothing, and needs all of them to succeed. -/
structure Reads (x : ExceptT Error (StateM FileTree) α) (paths : List Path) : Prop where
  unchanged : ∀ t, (runOn x t).2 = t
  congr : ∀ t t', (∀ p ∈ paths, t'.read p = t.read p) → (runOn x t').1 = (runOn x t).1
  found : ∀ t a, (runOn x t).1 = .ok a → ∀ p ∈ paths, ∃ contents, t.read p = .ok contents

theorem Reads.run {x : ExceptT Error (StateM FileTree) α} {paths : List Path} (h : Reads x paths)
    (t : FileTree) : runOn x t = ((runOn x t).1, t) := Prod.ext rfl (h.unchanged t)

theorem reads_mk_pure (r : Except Error α) : Reads (ExceptT.mk (pure r)) [] where
  unchanged _ := rfl
  congr _ _ _ := rfl
  found _ _ _ _ hp := absurd hp List.not_mem_nil

theorem reads_pure (a : α) : Reads (pure a) [] := reads_mk_pure (.ok a)

theorem reads_readText (p : Path) : Reads (readText p) [p] where
  unchanged _ := rfl
  congr t t' h := by
    have hp := h p List.mem_cons_self
    change (t'.read p).mapError _ = (t.read p).mapError _
    rw [hp]
  found t a h q hq := by
    obtain rfl := List.mem_singleton.mp hq
    have hrun : runOn (readText q) t = (.ok a, t) := Prod.ext h rfl
    exact ⟨a, congrArg Prod.fst (runOn_attempt_eq_ok hrun)⟩

theorem Reads.bind {x : ExceptT Error (StateM FileTree) α}
    {f : α → ExceptT Error (StateM FileTree) β} {ps qs : List Path} (hx : Reads x ps)
    (hf : ∀ a, Reads (f a) qs) : Reads (x >>= f) (ps ++ qs) where
  unchanged t := by
    rw [runOn_bind, hx.run t]
    cases (runOn x t).1 with
    | error e => rfl
    | ok a => exact (hf a).unchanged t
  congr t t' h := by
    rw [runOn_bind, runOn_bind, hx.run t, hx.run t',
      hx.congr t t' fun p hp => h p (List.mem_append_left qs hp)]
    cases (runOn x t).1 with
    | error e => rfl
    | ok a => exact (hf a).congr t t' fun p hp => h p (List.mem_append_right ps hp)
  found t b h p hp := by
    rw [runOn_bind, hx.run t] at h
    cases hr : (runOn x t).1 with
    | error e => simp [hr] at h
    | ok a =>
      rw [hr] at h
      rcases List.mem_append.mp hp with hp | hp
      · exact hx.found t a hr p hp
      · exact (hf a).found t b h p hp

theorem Reads.map {x : ExceptT Error (StateM FileTree) α} {paths : List Path} (hx : Reads x paths)
    (f : α → β) : Reads (f <$> x) paths := by
  have := hx.bind fun a => reads_pure (f a)
  rwa [List.append_nil, bind_pure_comp] at this

theorem reads_readSource (p : Path) : Reads (readSource p) [p] :=
  (reads_readText p).bind fun text => reads_mk_pure (SourceFile.read p text)

namespace Config

variable {c : Config} {directory : Path}

/-- The paths of the files that a project is made of. -/
def inputs (c : Config) : List Path :=
  [c.template.path, c.examples.path] ++ (c.providers.map (·.path)).toList

/-- The paths of the artifacts in a directory. -/
def outputs (c : Config) (directory : Path) : List Path :=
  [c.output.api, c.output.basicTest, c.output.collectionTest, c.output.docs].map
    fun name => directory.join ⟨name⟩

theorem reads_readSources (c : Config) : Reads c.readSources c.inputs := by
  have hinputs : c.inputs =
      [c.template.path] ++ ([c.examples.path] ++ (c.providers.map (·.path)).toList) := rfl
  rw [hinputs]
  refine (reads_readSource c.template.path).bind fun template => ?_
  refine (reads_readSource c.examples.path).bind fun examples => ?_
  cases c.providers with
  | none => exact (reads_pure none).bind fun _ => reads_pure _
  | some reference =>
    exact ((reads_readSource reference.path).map some).bind fun _ => reads_pure _

theorem reads_render (c : Config) : Reads c.render c.inputs := by
  have := (reads_readSources c).bind fun sources => reads_mk_pure (c.artifacts sources)
  rwa [List.append_nil] at this

/-! ## Writing and comparing -/

/-- Where an artifact is written, and what. -/
def written (directory : Path) (a : Artifact) : Path × String :=
  (directory.join ⟨a.fileName⟩, a.contents)

theorem writtenAll_writeAll {artifacts : List Artifact} {paths : List Path}
    (h : runOn (writeAll directory artifacts) t = (.ok paths, t')) :
    FileTree.WrittenAll t (artifacts.map (written directory)) t' := by
  induction artifacts generalizing t paths with
  | nil =>
    obtain rfl := (Prod.ext_iff.mp h).2
    exact .nil t
  | cons a artifacts ih =>
    obtain ⟨⟨⟩, t₁, hfirst, h⟩ := runOn_bind_eq_ok h
    obtain ⟨rest, t₂, hrest, h⟩ := runOn_bind_eq_ok h
    obtain rfl := (Prod.ext_iff.mp h).2
    exact .cons (FileTree.written_writeAtomic hfirst) (ih hrest)

/-- How the report about the other artifacts is completed by what is found at the path of one. -/
def reportOn (a : Artifact) (path : Path) (rest : Except Error Report) :
    Except FileFault String → Except Error Report
  | .ok contents =>
    rest.map fun r => if contents = a.contents then r else { r with stale := path :: r.stale }
  | .error .notFound => rest.map fun r => { r with missing := path :: r.missing }
  | .error fault => .error (.file path fault)

theorem runOn_compareAll_cons (a : Artifact) (artifacts : List Artifact) {rest : Except Error Report}
    (h : runOn (compareAll directory artifacts) t = (rest, t)) :
    runOn (compareAll directory (a :: artifacts)) t =
      (reportOn a (written directory a).1 rest (t.read (written directory a).1), t) := by
  rw [compareAll, runOn_bind, runOn_read]
  change runOn (match t.read (written directory a).1 with
    | .ok contents => _
    | .error .notFound => _
    | .error fault => _) t = _
  rcases t.read (written directory a).1 with fault | contents
  · cases fault <;> simp [reportOn, h, runOn_map, written]
  · simp [reportOn, h, runOn_map, written]

theorem runOn_compareAll (directory : Path) (artifacts : List Artifact) (t : FileTree) :
    ∃ r, runOn (compareAll directory artifacts) t = (r, t) := by
  induction artifacts with
  | nil => exact ⟨_, rfl⟩
  | cons a artifacts ih =>
    obtain ⟨rest, h⟩ := ih
    exact ⟨_, runOn_compareAll_cons a artifacts h⟩

/-- A report is clean iff the path holds its artifact and the report about the others is clean. -/
theorem isClean_reportOn_iff (a : Artifact) (path : Path) (rest : Except Error Report)
    (found : Except FileFault String) :
    (∃ r, reportOn a path rest found = .ok r ∧ r.isClean) ↔
      found = .ok a.contents ∧ ∃ r, rest = .ok r ∧ r.isClean := by
  rcases found with fault | contents
  · cases fault <;> cases rest <;> simp [reportOn, Except.map, Report.isClean]
  · cases rest with
    | error e => simp [reportOn, Except.map]
    | ok r => by_cases hc : contents = a.contents <;> simp [reportOn, Except.map, Report.isClean, hc]

/-- The comparison finds nothing iff every path holds its artifact. -/
theorem isClean_compareAll_iff (directory : Path) (artifacts : List Artifact) (t : FileTree) :
    (∃ r, runOn (compareAll directory artifacts) t = (.ok r, t) ∧ r.isClean) ↔
      ∀ f ∈ artifacts.map (written directory), t.read f.1 = .ok f.2 := by
  induction artifacts with
  | nil => simp [compareAll, Report.isClean]
  | cons a artifacts ih =>
    obtain ⟨rest, h⟩ := runOn_compareAll directory artifacts t
    rw [List.map_cons, List.forall_mem_cons, ← ih, runOn_compareAll_cons a artifacts h, h]
    simpa [written] using isClean_reportOn_iff a (written directory a).1 rest
      (t.read (written directory a).1)

/-! ## The artifacts of a project -/

theorem map_fileName_artifacts {s : Sources} {as : List Artifact} (h : c.artifacts s = .ok as) :
    as.map (·.fileName) =
      [c.output.api, c.output.basicTest, c.output.collectionTest, c.output.docs] := by
  obtain ⟨template, -, h⟩ := Declaration.exists_of_bind h
  obtain ⟨examples, -, h⟩ := Declaration.exists_of_bind h
  obtain ⟨providers, -, h⟩ := Declaration.exists_of_bind h
  obtain ⟨api, -, h⟩ := Declaration.exists_of_bind h
  obtain ⟨basic, -, h⟩ := Declaration.exists_of_bind h
  obtain ⟨collection, -, h⟩ := Declaration.exists_of_bind h
  obtain ⟨document, -, h⟩ := Declaration.exists_of_bind h
  obtain rfl := Except.ok.inj h
  rfl

/-- What is rendered goes to the paths of the artifacts. -/
theorem map_fst_written {as : List Artifact} (h : runOn c.render t = (.ok as, t')) :
    (as.map (written directory)).map Prod.fst = c.outputs directory := by
  obtain ⟨sources, t₁, -, h⟩ := runOn_bind_eq_ok h
  have hnames := map_fileName_artifacts (Prod.ext_iff.mp h).1
  rw [outputs, ← hnames, List.map_map, List.map_map]
  rfl

/-- **Generating, and checking right after.** Where rendering fails nothing is changed. Where all is
written, the four paths being different and none an input's, the check is clean and all else is held
iff there is room for the temporary files. -/
theorem generate_clean_iff (c : Config) (directory : Path) (t : FileTree)
    (distinct : (c.outputs directory).Pairwise fun p q => t.destination p ≠ t.destination q)
    (apart : ∀ p ∈ c.outputs directory, ∀ q ∈ c.inputs, t.destination p ≠ t.destination q) :
    (∀ e, (runOn c.render t).1 = .error e → runOn (c.generate directory) t = (.error e, t)) ∧
    ∀ paths t', runOn (c.generate directory) t = (.ok paths, t') →
      (((∃ report, runOn (c.check directory) t' = (.ok report, t') ∧ report.isClean) ∧
          t.HeldBut t' (c.outputs directory)) ↔
        t.RoomFor (c.outputs directory)) := by
  refine ⟨fun e he => ?_, fun paths t' h => ?_⟩
  · rw [generate, runOn_bind, (reads_render c).run t, he]
  obtain ⟨as, t₁, hrender, hwrite⟩ := runOn_bind_eq_ok h
  obtain rfl : t = t₁ := ((reads_render c).unchanged t).symm.trans (Prod.ext_iff.mp hrender).2
  have hall := writtenAll_writeAll hwrite
  have houts : (as.map (written directory)).map Prod.fst = c.outputs directory :=
    map_fst_written hrender
  rw [← houts] at distinct apart ⊢
  rw [List.pairwise_map] at distinct
  rw [← hall.read_and_held_iff distinct]
  refine and_congr_left fun hheld => ?_
  -- The inputs are no outputs, so they are held, and the same is rendered again.
  have hagain : runOn c.render t' = (.ok as, t') := by
    rw [(reads_render c).run t', (reads_render c).congr t t' ?_, hrender]
    intro q hq
    obtain ⟨contents, hread⟩ := (reads_render c).found t as (Prod.ext_iff.mp hrender).1 q hq
    rw [hread]
    refine hall.keeps.read hread ?_
    rcases hheld _ fun p hp => apart p hp q hq with he | ⟨hn, -, -⟩
    · exact he
    · rw [(FileTree.read_eq_ok_iff.mp hread).2] at hn
      cases hn
  rw [check, runOn_bind, hagain]
  exact isClean_compareAll_iff directory as t'

/-- A project whose first artifact has the name of the second one's temporary file. -/
def clashingProject : Config where
  template := ⟨⟨"T.php"⟩, "T"⟩
  examples := ⟨⟨"E.php"⟩, "E"⟩
  output := { api := "P.tmp", basicTest := "P.php" }

/-- A template of one function and no examples. -/
def smallTree : FileTree where
  entries :=
    [(["home"], .directory),
      (["home", "T.php"], .file "<?php class T \x7b static function f($x) \x7b return $x; \x7d \x7d"),
      (["home", "E.php"], .file "<?php class E \x7b \x7d")]
  home := ["home"]

/-- Generating succeeds, and the first artifact is lost. -/
theorem generate_clean_iff_clashing :
    ∃ paths t', runOn (clashingProject.generate ⟨"generated"⟩) smallTree = (.ok paths, t') ∧
      ¬ ((∃ report, runOn (clashingProject.check ⟨"generated"⟩) t' = (.ok report, t') ∧
          report.isClean) ∧
        smallTree.HeldBut t' (clashingProject.outputs ⟨"generated"⟩)) := by
  have hok : (runOn (clashingProject.generate ⟨"generated"⟩) smallTree).1.toOption.isSome := by
    decide +kernel
  obtain ⟨paths, hpaths⟩ := Declaration.exists_of_toOption_isSome hok
  refine ⟨paths, _, Prod.ext hpaths rfl, ?_⟩
  have hiff := (generate_clean_iff clashingProject ⟨"generated"⟩ smallTree (by decide +kernel)
    (by decide +kernel)).2 paths _ (Prod.ext hpaths rfl)
  rw [hiff]
  intro hroom
  have hlater := hroom.later
  revert hlater
  decide +kernel

end Config

end CurryGen

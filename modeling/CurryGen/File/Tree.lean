import CurryGen.File.Access

/-!
# File trees

Files and directories as a value. Locations are lists of names from the root down, and a path is
followed step by step from the root or from the working directory.

* `FileTree.entry?`: what stands at a location.
* `FileTree.follow`: where a path leads.
* `FileTree.read`, `write`, `rename`, `remove`, `makeDirectories`: the file operations.
-/

namespace CurryGen

/-- The names on the way from the root. -/
abbrev Location := List String

inductive FileEntry where
  | file (contents : String)
  | directory
deriving DecidableEq, Repr

structure FileTree where
  /-- What stands where, the root left out. -/
  entries : List (Location × FileEntry)
  /-- The working directory. -/
  home : Location
deriving Repr

namespace FileTree

/-- A tree with nothing but the working directory. -/
def empty : FileTree := ⟨[(["home"], .directory)], ["home"]⟩

/-! ## Locations -/

/-- What stands at a location; the root is a directory. -/
def entry? (t : FileTree) (l : Location) : Option FileEntry :=
  if l = [] then some .directory else t.entries.lookup l

/-- The tree with an entry at a location, in place of what stood there. -/
def put (t : FileTree) (l : Location) (e : FileEntry) : FileTree :=
  { t with entries := (l, e) :: t.entries.filter (·.1 != l) }

/-- The tree with nothing at a location. -/
def erase (t : FileTree) (l : Location) : FileTree :=
  { t with entries := t.entries.filter (·.1 != l) }

/-- The tree with nothing at a location and below it. -/
def eraseAll (t : FileTree) (l : Location) : FileTree :=
  { t with entries := t.entries.filter fun entry => !l.isPrefixOf entry.1 }

/-! ## Paths -/

/-- The location that one step of a path leads to from a directory. -/
def step (l : Location) (name : String) : Location :=
  if Path.isIdle name then l else if name = ".." then l.dropLast else l ++ [name]

/-- The location that steps lead to; every step but the last must lead to a directory. -/
def followFrom (t : FileTree) (l : Location) : List String → Except FileFault Location
  | [] => .ok l
  | name :: names =>
    match t.entry? l with
    | none => .error .notFound
    | some (.file _) => .error .notADirectory
    | some .directory => t.followFrom (step l name) names

/-- The steps of a path. -/
def steps (p : Path) : List String := Text.splitAt '/' p.text

/-- Where a path starts. -/
def start (t : FileTree) (p : Path) : Location := if p.isAbsolute then [] else t.home

/-- The location that a path leads to. The empty path leads nowhere. -/
def follow (t : FileTree) (p : Path) : Except FileFault Location :=
  if p.text = "" then .error .notFound else t.followFrom (t.start p) (steps p)

/-! ## Operations

An operation returns its result and the tree after it. -/

/-- The contents of a file. -/
def read (t : FileTree) (p : Path) : Except FileFault String :=
  match t.follow p with
  | .error fault => .error fault
  | .ok l =>
    match t.entry? l with
    | none => .error .notFound
    | some .directory => .error .isADirectory
    | some (.file contents) => .ok contents

/-- Writes a file in an existing directory. -/
def write (t : FileTree) (p : Path) (contents : String) : Except FileFault Unit × FileTree :=
  match t.follow p with
  | .error fault => (.error fault, t)
  | .ok l =>
    match t.entry? l with
    | some .directory => (.error .isADirectory, t)
    | _ => (.ok (), t.put l (.file contents))

/-- Removes a file. -/
def remove (t : FileTree) (p : Path) : Except FileFault Unit × FileTree :=
  match t.follow p with
  | .error fault => (.error fault, t)
  | .ok l =>
    match t.entry? l with
    | none => (.error .notFound, t)
    | some .directory => (.error .isADirectory, t)
    | some (.file _) => (.ok (), t.erase l)

/-- The steps of a path without the slashes at its end. -/
def targetSteps (p : Path) : List String := ((steps p).reverse.dropWhile (· == "")).reverse

/-- The fault of a target that is named as a directory: by its last step being the directory itself
or the one above, or by a slash at its end. -/
def targetFault? (p : Path) : Option FileFault :=
  match (targetSteps p).getLast? with
  | some "." | some ".." => some .busy
  | _ => if (steps p).getLast? = some "" then some .notADirectory else none

/-- The location of a path that may end in slashes. -/
def followTarget (t : FileTree) (p : Path) : Except FileFault Location :=
  if p.text = "" then .error .notFound else t.followFrom (t.start p) (targetSteps p)

/-- Moves a file to a path. -/
def rename (t : FileTree) (source target : Path) : Except FileFault Unit × FileTree :=
  match t.follow source, t.followTarget target with
  | .error fault, _ | .ok _, .error fault => (.error fault, t)
  | .ok l, .ok l' =>
    match t.entry? l, targetFault? target, t.entry? l' with
    | none, _, _ => (.error .notFound, t)
    | _, some fault, _ => (.error fault, t)
    | _, none, some .directory => (.error .isADirectory, t)
    | some e, none, _ => (.ok (), if l = l' then t else (t.erase l).put l' e)

/-- Follows steps and makes the directories that are missing; `made` tells whether one was. A file in
the way is met as the place of a new directory once one was made, or at the last step. -/
def makeFrom (t : FileTree) (made : Bool) (l : Location) : List String →
    Except FileFault Unit × FileTree
  | [] => (.ok (), t)
  | name :: names =>
    let l := step l name
    match t.entry? l with
    | some .directory => t.makeFrom made l names
    | some (.file _) => (.error (if made || names.isEmpty then .alreadyExists else .notADirectory), t)
    | none => (t.put l .directory).makeFrom true l names

/-- Makes a directory and those above it, as far as they are missing. -/
def makeDirectories (t : FileTree) (p : Path) : Except FileFault Unit × FileTree :=
  if p.text = "" then (.ok (), t) else t.makeFrom false (t.start p) (steps p)

instance : FileAccess (StateM FileTree) where
  read p := fun t => (t.read p, t)
  write p contents := fun t => t.write p contents
  rename source target := fun t => t.rename source target
  remove p := fun t => t.remove p
  makeDirectories p := fun t => t.makeDirectories p

/-! ## Scenes -/

/-- Writes a file and makes the directories above it. -/
def place (t : FileTree) (p : Path) (contents : String) : FileTree :=
  let t := match p.parent? with
    | some parent => (t.makeDirectories parent).2
    | none => t
  (t.write p contents).2

/-- Removes a file or a directory with all below it. -/
def removeAll (t : FileTree) (p : Path) : FileTree :=
  match t.follow p with
  | .ok l => t.eraseAll l
  | .error _ => t

/-- The text of an entry's path below the working directory; directories end in a slash. -/
def listed? (t : FileTree) (l : Location) (e : FileEntry) : Option String :=
  if t.home.isPrefixOf l && l.length > t.home.length then
    some ("/".intercalate (l.drop t.home.length) ++ match e with
      | .directory => "/"
      | .file _ => "")
  else none

/-- All paths below the working directory, in order. -/
def listing (t : FileTree) : List String :=
  (t.entries.filterMap fun (l, e) => t.listed? l e).mergeSort (· ≤ ·)

end FileTree

end CurryGen

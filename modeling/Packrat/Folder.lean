import Packrat.Bytes

/-!
# `Packrat.Folder` — files by path

A program names a file by a path that leads from the folder in which it runs. What lies above that folder is
not known, except that it consists of folders and has a null device.

## Contents
- **Opening.** `Opened`, what opening a path gives: a file, a folder, which cannot be read, or nothing.
- **Folders.** `Folder`, the files below a folder; `entry` is what stands at a place in it.
- **Paths.** `components` splits a path at its slashes, `Place.step` follows one component, and
  `Folder.resolve` a whole path.
-/

namespace Packrat

/-! ## Opening -/

/-- What opening a path gives. -/
inductive Opened where
  | file (text : Bytes)
  /-- A folder can be opened, but reading it fails. -/
  | folder
  | missing
deriving DecidableEq

/-- What is reported when a folder is read. -/
def folderRead : Bytes := Bytes.ascii "basic_filebuf::underflow error reading the file: Is a directory"

/-! ## Folders -/

/-- The files below a folder, each with the names that lead to it. -/
structure Folder where
  files : List (List Bytes × Bytes)

/-- What stands at the place to which the given names lead: a file, or a folder if more names lead on from
there to a file. -/
def Folder.entry (d : Folder) (names : List Bytes) : Opened :=
  match d.files.find? (·.1 == names) with
  | some (_, text) => .file text
  | none => if names.isEmpty || d.files.any (names.isPrefixOf ·.1) then .folder else .missing

/-! ## Paths -/

/-- The parts of a path between its slashes; a slash at an end or beside another leaves an empty part. -/
def components : Bytes → List Bytes
  | [] => [[]]
  | b :: rest =>
    if b == Bytes.char '/' then [] :: components rest
    else
      match components rest with
      | [] => [[b]]
      | part :: parts => (b :: part) :: parts

/-- Whether a component of a path stays where it is. -/
def isHere (part : Bytes) : Bool := part.isEmpty || part == Bytes.ascii "."

/-- The folder that holds files with the given paths. -/
def Folder.ofFiles (files : List (Bytes × Bytes)) : Folder :=
  ⟨files.map fun (path, text) => ((components path).filter (!isHere ·), text)⟩

/-- A place that a path has reached. -/
inductive Place where
  /-- What the given names lead to, of which the last comes first. -/
  | below (names : List Bytes)
  /-- Some folder above the one in which the program runs. -/
  | above
  /-- Nothing that a path can reach. -/
  | nowhere

/-- What stands at a place. -/
def Place.entry (d : Folder) : Place → Opened
  | .below names => d.entry names.reverse
  | .above => .folder
  | .nowhere => .missing

/-- The place to which one more component of a path leads. A path cannot go on behind a file. -/
def Place.step (d : Folder) (p : Place) (part : Bytes) : Place :=
  match p.entry d with
  | .folder =>
    if isHere part then p
    else if part == Bytes.ascii ".." then
      match p with
      | .below (_ :: names) => .below names
      | _ => .above
    else
      match p with
      | .below names => .below (part :: names)
      | _ => .nowhere
  | _ => .nowhere

/-- The path of the null device, which reads as an empty file. -/
def nullDevice : Bytes := Bytes.ascii "/dev/null"

/-- What opening a path gives to a program that runs in the folder. -/
def Folder.resolve (d : Folder) (path : Bytes) : Opened :=
  if path.isEmpty then .missing
  else if path == nullDevice then .file []
  else
    let start : Place := if path.head? == some (Bytes.char '/') then .above else .below []
    ((components path).foldl (·.step d) start).entry d

example :
    let d := Folder.ofFiles [(Bytes.ascii "a/b", [1])]
    d.resolve (Bytes.ascii ".//a/./b") = .file [1] ∧ d.resolve (Bytes.ascii "a/../a/") = .folder ∧
      d.resolve (Bytes.ascii "a/b/") = .missing ∧ d.resolve (Bytes.ascii "../a") = .missing := by
  decide +kernel

end Packrat

import Whittle.Project.Resolver

/-!
# A disk in memory

Files and directories as a tree below one root, with a working directory.  A path is followed name by
name, and every item it passes has to be a directory.  `Disk.writeFile` and `Disk.makeDirectories`
refuse for the same reasons, in the same order, as a disk does.
-/

namespace Whittle

/-- A file, or a directory with what stands in it by name. -/
inductive DiskItem where
  | file (contents : String)
  | directory (items : List (String × DiskItem))

namespace DiskItem

/-- What stands in an item; nothing stands in a file. -/
def items : DiskItem → List (String × DiskItem)
  | .file _ => []
  | .directory items => items

/-- Puts something under a name, in the place of what stood there. -/
def replace (name : String) (new : DiskItem) : List (String × DiskItem) → List (String × DiskItem)
  | [] => [(name, new)]
  | (other, item) :: rest =>
    if other == name then (name, new) :: rest else (other, item) :: replace name new rest

/-- Puts something at the end of the given names, with directories on the way. -/
def put (item : DiskItem) : List String → DiskItem → DiskItem
  | [], new => new
  | name :: names, new =>
    let inner := (item.items.lookup name).getD (.directory [])
    .directory (replace name (put inner names new) item.items)

mutual

/-- The files in an item: the names that lead to each, and its contents. -/
def files : DiskItem → List (List String × String)
  | .file contents => [([], contents)]
  | .directory items => filesAll items

/-- The files in items. -/
def filesAll : List (String × DiskItem) → List (List String × String)
  | [] => []
  | (name, item) :: rest => item.files.map (fun f => (name :: f.1, f.2)) ++ filesAll rest

end

end DiskItem

/-- Why a disk refuses. -/
inductive DiskFault where
  | missing
  | alreadyThere
  | notDirectory
  | isDirectory
  | nameTooLong
deriving DecidableEq, Repr

/-- The fault as messages word it. -/
def DiskFault.text : DiskFault → String
  | .missing => "No such file or directory (os error 2)"
  | .alreadyThere => "File exists (os error 17)"
  | .notDirectory => "Not a directory (os error 20)"
  | .isDirectory => "Is a directory (os error 21)"
  | .nameTooLong => "File name too long (os error 36)"

/-- The most bytes that a name can have. -/
def maxNameBytes : Nat := 255

/-- The most bytes that a path can have. -/
def maxPathBytes : Nat := 4095

/-- The names and items that a walk from the root has passed, the latest first. -/
abbrev Trail := List (String × DiskItem)

/-- The names of a trail from the root on. -/
def Trail.names (trail : Trail) : List String := (trail.map (·.1)).reverse

/-- The end of a trail as an absolute path. -/
def Trail.path (trail : Trail) : String := Path.text ⟨true, trail.names⟩

/-- Files and directories. -/
structure Disk where
  /-- The names from the root to where relative paths start. -/
  workingDirectory : List String
  /-- What stands at the root. -/
  root : DiskItem

namespace Disk

/-! ## Following paths -/

/-- What stands at the end of a trail. -/
def item (d : Disk) : Trail → DiskItem
  | [] => d.root
  | (_, item) :: _ => item

/-- One step of a walk. -/
def step (d : Disk) (trail : Trail) (name : String) : Except DiskFault Trail :=
  match d.item trail with
  | .file _ => .error .notDirectory
  | .directory items =>
    if name == "." then .ok trail
    else if name == ".." then .ok trail.tail
    else if maxNameBytes < name.utf8ByteSize then .error .nameTooLong
    else
      match items.lookup name with
      | none => .error .missing
      | some item => .ok ((name, item) :: trail)

/-- Walks along names. -/
def walk (d : Disk) (trail : Trail) (names : List String) : Except DiskFault Trail :=
  names.foldlM d.step trail

/-- Walks along the names of a path. -/
def follow (d : Disk) (path : String) (names : List String) : Except DiskFault Trail := do
  if maxPathBytes < path.utf8ByteSize then throw .nameTooLong
  let start ← if path.startsWith "/" then pure [] else d.walk [] d.workingDirectory
  d.walk start names

/-- Where a path leads to.  One that ends in a separator leads to directories only. -/
def find (d : Disk) (path : String) : Except DiskFault Trail := do
  let trail ← d.follow path (Path.segments path)
  match d.item trail with
  | .file _ => if path.endsWith "/" then throw .notDirectory else return trail
  | .directory _ => return trail

/-- Where a path leads to, if there is a file. -/
def file? (d : Disk) (path : String) : Option Trail :=
  match d.find path with
  | .ok trail =>
    match d.item trail with
    | .file _ => some trail
    | .directory _ => none
  | .error _ => none

/-- Whether a path leads to a directory. -/
def isDirectory (d : Disk) (path : String) : Bool :=
  match d.find path with
  | .ok trail =>
    match d.item trail with
    | .file _ => false
    | .directory _ => true
  | .error _ => false

/-- The contents of the file that a path leads to. -/
def read (d : Disk) (path : String) : Except DiskFault String := do
  match d.item (← d.find path) with
  | .file contents => return contents
  | .directory _ => throw .isDirectory

/-- Finds modules on a disk.  Their paths are absolute. -/
def resolver (d : Disk) : Resolver where
  find? path := (d.file? path).map (·.path)
  read path := (d.read path).mapError fun fault => .unreadable path fault.text
  fileCount := d.root.files.length

/-! ## Changing the disk -/

/-- Puts something under a name at the end of a trail. -/
def put (d : Disk) (trail : Trail) (name : String) (new : DiskItem) : Disk :=
  { d with root := d.root.put (trail.names ++ [name]) new }

/-- Makes a directory in one that exists. -/
def makeDirectory (d : Disk) (path : String) : Except DiskFault Disk := do
  let names := Path.segments path
  let trail ← d.follow path names.dropLast
  let some name := names.getLast? | throw .alreadyThere
  match d.step trail name with
  | .ok _ => throw .alreadyThere
  | .error .missing => return d.put trail name (.directory [])
  | .error fault => throw fault

/-- Makes the first of the given directories unless it exists; each of the others is the one above the
one before it, and is made if it is missing. -/
def makeDirectories : List String → Disk → Except DiskFault Disk
  | [], d => .ok d
  | path :: above, d =>
    match d.makeDirectory path with
    | .error .missing => do
      let d ← makeDirectories above d
      orExisting path d (d.makeDirectory path)
    | result => orExisting path d result
where
  orExisting (path : String) (d : Disk) : Except DiskFault Disk → Except DiskFault Disk
  | .ok d => .ok d
  | .error fault => if d.isDirectory path then .ok d else .error fault

/-- Makes the directories above a file. -/
def makeParents (d : Disk) (path : String) : Except DiskFault Disk :=
  makeDirectories ((Path.parent? path).toList.flatMap Path.ancestors) d

/-- Writes a file in a directory that exists. -/
def writeFile (d : Disk) (path contents : String) : Except DiskFault Disk := do
  let names := Path.segments path
  let trail ← d.follow path names.dropLast
  match d.item trail, names.getLast? with
  | .file _, _ => throw .notDirectory
  | .directory _, none => throw .isDirectory
  | .directory _, some name =>
    if path.endsWith "/" then throw .isDirectory
    match d.step trail name with
    | .ok found =>
      match d.item found with
      | .file _ => return d.put trail name (.file contents)
      | .directory _ => throw .isDirectory
    | .error .missing => return d.put trail name (.file contents)
    | .error fault => throw fault

/-- Writes a file and makes the directories above it. -/
def save (d : Disk) (path contents : String) : Except DiskFault Disk := do
  (← d.makeParents path).writeFile path contents

/-- A disk with the given files, seen from a working directory.  A file that cannot be written is left
out. -/
def ofFiles (workingDirectory : List String) (files : List (String × String)) : Disk :=
  files.foldl
    (fun d (path, contents) =>
      match d.save path contents with
      | .ok d => d
      | .error _ => d)
    ⟨workingDirectory, (DiskItem.directory []).put workingDirectory (.directory [])⟩

/-- The files below the working directory, by path from there. -/
def files (d : Disk) : List (String × String) :=
  match d.walk [] d.workingDirectory with
  | .ok trail => (d.item trail).files.map fun f => (Path.text ⟨false, f.1⟩, f.2)
  | .error _ => []

/-- The files that are new or other than on an earlier disk, by path below the working directory. -/
def changesSince (d earlier : Disk) : List (String × String) :=
  let before := earlier.files
  d.files.filter (!before.contains ·)

end Disk

end Whittle

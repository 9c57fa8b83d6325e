import BlockLang.Disk.Path

/-! A disk: folders and files by their place, and the operations on it with their failures. A path
is followed part by part from the root or the current folder, and every part but the last must be
a folder. -/

namespace BlockLang

/-- What can be stored at a place. -/
inductive Node where
  | folder
  | file (content : List UInt8)
  /-- A file that can be started as a program. -/
  | program
  deriving DecidableEq, Repr, Inhabited

/-- Why the disk cannot do what it is asked for. -/
inductive DiskCause where
  | missing
  | notAFolder
  | isAFolder
  | alreadyThere
  | notEmpty
  | nameTooLong
  | badName
  deriving DecidableEq, Repr, Inhabited

def DiskCause.message : DiskCause → String
  | missing => "no such file or directory"
  | notAFolder => "not a directory"
  | isAFolder => "is a directory"
  | alreadyThere => "file exists"
  | notEmpty => "directory not empty"
  | nameTooLong => "file name too long"
  | badName => "invalid argument"

/-- What was tried on which path, and why it failed. -/
structure DiskError where
  action : String
  path : String
  cause : DiskCause
  deriving DecidableEq, Repr, Inhabited

def DiskError.message (e : DiskError) : String :=
  e.action ++ " " ++ e.path ++ ": " ++ e.cause.message

/-- The nodes of a disk by their place, given as parts from the root, and the current folder. -/
structure Disk where
  nodes : List (List String × Node) := []
  cwd : List String := []
  deriving DecidableEq, Repr, Inhabited

namespace Disk

/-- The node at a place; the root is always a folder. -/
def at? (d : Disk) (place : List String) : Option Node :=
  if place.isEmpty then some .folder else d.nodes.lookup place

def put (d : Disk) (place : List String) (node : Node) : Disk :=
  { d with nodes := (place, node) :: d.nodes.filter (·.1 ≠ place) }

def erase (d : Disk) (place : List String) : Disk :=
  { d with nodes := d.nodes.filter (·.1 ≠ place) }

/-- Follows parts from a place. The place that is reached may be empty. -/
def follow (d : Disk) : List String → List String → Except DiskCause (List String)
  | place, [] => .ok place
  | place, part :: rest =>
    match d.at? place with
    | none => .error .missing
    | some .folder =>
      if part = "" ∨ part = "." then follow d place rest
      else if part = ".." then follow d place.dropLast rest
      else if 255 < part.utf8ByteSize then .error .nameTooLong
      else follow d (place ++ [part]) rest
    | some _ => .error .notAFolder

/-- The place that a path leads to. -/
def resolve (d : Disk) (path : String) : Except DiskCause (List String) :=
  if path = "" then .error .missing
  else if path.toList.contains '\x00' then .error .badName
  else d.follow (if Path.isAbsolute path then [] else d.cwd) (Path.parts path)

def lookup (d : Disk) (path : String) : Except DiskCause Node := do
  match d.at? (← d.resolve path) with
  | some node => .ok node
  | none => .error .missing

/-- Names what was tried in front of a failure. -/
def tried {α : Type} (action path : String) (r : Except DiskCause α) : Except DiskError α :=
  r.mapError fun cause => ⟨action, path, cause⟩

def stat (d : Disk) (path : String) : Except DiskError Node := tried "stat" path (d.lookup path)

def read (d : Disk) (path : String) : Except DiskError (List UInt8) := do
  match ← tried "open" path (d.lookup path) with
  | .file content => .ok content
  | .program => .ok []
  | .folder => .error ⟨"read", path, .isAFolder⟩

/-- Writes a file, which replaces an older one. -/
def write (d : Disk) (path : String) (content : List UInt8) : Except DiskError Disk :=
  tried "open" path do
    let place ← d.resolve path
    match d.at? place, d.at? place.dropLast with
    | some .folder, _ => .error .isAFolder
    | some _, _ => .ok (d.put place (.file content))
    | none, some .folder => .ok (d.put place (.file content))
    | none, some _ => .error .notAFolder
    | none, none => .error .missing

def makeFolder (d : Disk) (path : String) : Except DiskError Disk :=
  tried "mkdir" path do
    let bare := String.ofList (path.toList.reverse.dropWhile (· = '/')).reverse
    let place ← d.resolve (if bare = "" then path else bare)
    match d.at? place, d.at? place.dropLast with
    | some _, _ => .error .alreadyThere
    | none, some .folder => .ok (d.put place .folder)
    | none, some _ => .error .notAFolder
    | none, none => .error .missing

/-- Whether anything is stored below a place. -/
def isOccupied (d : Disk) (place : List String) : Bool :=
  d.nodes.any fun (p, _) => place.length < p.length && place.isPrefixOf p

/-- Removes a file or an empty folder. -/
def remove (d : Disk) (path : String) : Except DiskError Disk :=
  tried "remove" path do
    let place ← d.resolve path
    match d.at? place with
    | none => .error .missing
    | some .folder => if d.isOccupied place then .error .notEmpty else .ok (d.erase place)
    | some _ => .ok (d.erase place)

/-- The names in a folder, in ascending order. -/
def names (d : Disk) (place : List String) : List String :=
  let inside := d.nodes.filterMap fun (p, _) =>
    if p.dropLast = place then p.getLast? else none
  inside.mergeSort fun a b => decide (a ≤ b)

/-- Makes every place on the way from a place along some parts a folder. -/
def ensureFolders (d : Disk) (place : List String) : List String → Disk
  | [] => d
  | part :: rest =>
    let next := place ++ [part]
    ensureFolders (if (d.at? next).isSome then d else d.put next .folder) next rest

/-- A disk with a file at a place, and folders above it. -/
def withFile (d : Disk) (place : List String) (content : List UInt8) : Disk :=
  (d.ensureFolders [] place.dropLast).put place (.file content)

end Disk

end BlockLang

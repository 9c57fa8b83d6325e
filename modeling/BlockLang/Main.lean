import BlockLang.Tool.Tester

/-! The command line. The tools work on a disk that is a value: the places that they may look at are
read from the real disk first, and what they changed is written back when they have ended. The
program is the tester if it is installed under the tester's name, and the compiler otherwise. -/

namespace BlockLang.Main

/-- The steps that a program may take: more than any program can take in a lifetime. -/
def unlimited : Nat := Nat.pow 2 62

/-- The year at a number of seconds after the start of 1970, counted in years of March to February
within cycles of 400 years. -/
def yearAt (seconds : Int) : Int :=
  let days := seconds / 86400 + 719468
  let day := days % 146097
  let year := (day - day / 1460 + day / 36524 - day / 146096) / 365
  let dayOfYear := day - (365 * year + year / 4 - year / 100)
  days / 146097 * 400 + year + if 306 ≤ dayOfYear then 1 else 0

/-- The variables that the tools look at. -/
def watched : List String := ["SWINDLE_TRACE", "SWINDLE_LEAK_CHECK", "SWINDLE_VERBOSE"]

def onTheWay : List String → List String → List (List String)
  | _, [] => []
  | place, part :: rest =>
    let next :=
      if part = "" ∨ part = "." then place
      else if part = ".." then place.dropLast
      else place ++ [part]
    next :: onTheWay next rest

def compilerPaths (arguments : List String) : List String :=
  match CompilerTool.flags.bind (CompilerTool.app.request · arguments) with
  | .ok (f, .run _ args) => (f.textOf "output" :: args).flatMap fun path => [path, Cache.path path]
  | _ => []

/-- The paths and patterns that the tester may look at. -/
def testerPaths (arguments : List String) : List String :=
  match TesterTool.flags.bind (TesterTool.app.request · arguments) with
  | .ok (f, .run _ args) =>
    f.textOf "binary" :: f.textOf "output" :: Text.words (f.textOf "test-files") ++ args
  | _ => []

def isPattern (part : String) : Bool := part.toList.any ("*?[\\".toList.contains ·)

/-- What is stored at a place of the real disk. -/
def nodeAt (place : List String) : IO (Option Node) := do
  let path := (⟨"/", Path.ofParts place⟩ : IO.FS.DirEntry).path
  if ← path.isDir then return some .folder
  if !(← path.pathExists) then return none
  if place.getLast? = some CompilerTool.app.name then return some .program
  return some (.file (← IO.FS.readBinFile path).toList)

/-- Reads a place of the real disk. -/
def load (d : Disk) (place : List String) : IO Disk := do
  if place.isEmpty || (d.at? place).isSome then return d
  match ← nodeAt place with
  | some node => return d.put place node
  | none => return d

/-- Reads a folder of the real disk with all that is in it. -/
partial def loadTree (d : Disk) (place : List String) : IO Disk := do
  let mut d ← load d place
  if d.at? place = some .folder then
    for entry in ← (⟨"/", Path.ofParts place⟩ : IO.FS.DirEntry).path.readDir do
      d ← loadTree d (place ++ [entry.fileName])
  return d

/-- Reads all that a path or a pattern leads to, and the settings files above it. -/
def loadPath (d : Disk) (path : String) : IO Disk := do
  let mut d := d
  let base := if Path.isAbsolute path then [] else d.cwd
  let fixed := (Path.parts path).takeWhile (!isPattern ·)
  let way := onTheWay [] base ++ onTheWay base fixed
  for place in way do
    d ← load d place
    d ← load d (place ++ [Settings.fileName])
  if fixed.length < (Path.parts path).length then
    d ← loadTree d (way.getLast?.getD base)
  return d

/-- The part of the real disk that some paths and patterns lead to. -/
def loadDisk (paths : List String) : IO Disk := do
  let cwd := (Path.parts (← IO.currentDir).toString).filter (· ≠ "")
  let d ← load { cwd } [Settings.fileName]
  paths.foldlM loadPath d

/-- Writes what has changed on a disk to the real one. -/
def store (before after : Disk) : IO Unit := do
  for (place, node) in after.nodes.reverse do
    if before.at? place ≠ some node then
      match node with
      | .file content => IO.FS.writeBinFile (Path.ofParts place) ⟨content.toArray⟩
      | .folder => IO.FS.createDirAll (Path.ofParts place)
      | .program => pure ()
  for (place, node) in before.nodes do
    if after.at? place = none && node ≠ .folder then IO.FS.removeFile (Path.ofParts place)

/-- The present year, by the age of this process. -/
def currentYear : IO Int := do
  let own := (⟨"/proc", "self"⟩ : IO.FS.DirEntry).path
  return yearAt (← own.metadata).modified.sec

/-- Runs one of the tools on the real disk. -/
def work (isTester : Bool) (arguments : List String) : IO UInt32 := do
  let year ← try currentYear catch _ => pure CompilerTool.app.since
  let env ← watched.filterMapM fun name => do
    return (← IO.getEnv name).map fun value => (name, value)
  let disk ← loadDisk (if isTester then testerPaths arguments else compilerPaths arguments)
  let o :=
    if isTester then TesterTool.launch (TesterTool.app.years year) env disk arguments
    else CompilerTool.start (CompilerTool.app.years year) unlimited env disk arguments
  store disk o.disk
  IO.print o.out
  IO.eprint o.err
  match o.status with
  | .exited code => return UInt32.ofNat code
  | .cutOff => return 1

end BlockLang.Main

/-- The command line of both tools. -/
def main (arguments : List String) : IO UInt32 := do
  let own ← IO.appPath
  BlockLang.Main.work (own.fileName = some BlockLang.TesterTool.app.name) arguments

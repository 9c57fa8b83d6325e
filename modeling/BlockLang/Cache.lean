import BlockLang.Bytecode.Codec
import BlockLang.Compilation
import BlockLang.Disk.Basic

/-! Compiled programs on a disk. A compiled program records the hash of its source, so one that lies
beside a source can take the place of a compilation as long as the hashes agree. -/

namespace BlockLang

/-- Why no program can be loaded from a path. -/
inductive LoadError where
  | disk (e : DiskError)
  | stored (path : String) (e : StoredError)
  deriving DecidableEq, Repr, Inhabited

namespace LoadError

/-- How a failure to load is worded. -/
def message : LoadError → String
  | disk e => e.message
  | stored path e => path ++ ": " ++ e.message

/-- Whether there is simply nothing to load. -/
def isMissing : LoadError → Bool
  | disk e => e.cause = .missing
  | stored _ _ => false

end LoadError

namespace Disk

def loadProgram (d : Disk) (path : String) : Except LoadError Program := do
  let content ← (d.read path).mapError .disk
  (Program.ofBytes content).mapError (.stored path)

def saveProgram (d : Disk) (path : String) (p : Program) : Except DiskError Disk :=
  d.write path p.toBytes

end Disk

namespace Cache

/-- The path of the compiled form of a source: the extension of sources gives way to that of
compiled programs. -/
def path (source : String) : String :=
  (if source.endsWith ".sw" then String.ofList (source.toList.take (source.length - 3)) else source)
    ++ ".swbc"

/-- The program at a path if it was compiled from a source. That there is none is not an error. -/
def find? (d : Disk) (path : String) (source : List Char) : Except LoadError (Option Program) :=
  match d.loadProgram path with
  | .ok p => .ok (if p.sourceHash = Digest.ofSource source then some p else none)
  | .error e => if e.isMissing then .ok none else .error e

/-- A compilation that may have used the disk, and the disk after it. -/
structure Outcome where
  disk : Disk
  compiled : Compiled Program
  /-- Whether the program comes from the disk. -/
  hit : Bool

def note (level : LogLevel) (text : String) : Event := .logged ⟨level, "swindle.driver", text⟩

/-- Compiles a source that could not be found, and stores the result. A disk that refuses it does
not spoil the compilation. -/
def refresh (d : Disk) (settings : Settings) (name : String) (source : List Char)
    (before : List Event) : Outcome :=
  let c := Compilation.compiled settings name source
  let events := before ++ c.events
  match c.result with
  | .error e => ⟨d, ⟨events, .error e⟩, false⟩
  | .ok p =>
    match d.saveProgram (path name) p with
    | .ok d => ⟨d, ⟨events, .ok p⟩, false⟩
    | .error e =>
      ⟨d, ⟨events ++ [note .warning ("could not write cache: " ++ e.message)], .ok p⟩, false⟩

/-- Takes the compiled form of a source from the disk or else compiles it. A file that holds no
program is passed over. -/
def compile (d : Disk) (settings : Settings) (name : String) (source : List Char) : Outcome :=
  match find? d (path name) source with
  | .ok (some p) => ⟨d, ⟨[note .info ("using cached " ++ path name)], .ok p⟩, true⟩
  | .ok none => refresh d settings name source []
  | .error e => refresh d settings name source [note .notice ("ignoring cache: " ++ e.message)]

end Cache

namespace Disk

/-- Why a source cannot be read. -/
structure SourceError where
  cause : DiskError
  deriving DecidableEq, Repr, Inhabited

/-- How a failure to read a source is worded. -/
def SourceError.message (e : SourceError) : String :=
  "could not read file '" ++ e.cause.path ++ "': " ++ e.cause.message

def readSource (d : Disk) (path : String) : Except SourceError (List Char) :=
  match d.read path with
  | .ok content => .ok (Text.decodeLossy content)
  | .error e => .error ⟨e⟩

end Disk

end BlockLang

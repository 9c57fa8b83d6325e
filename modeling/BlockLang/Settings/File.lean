import BlockLang.Disk.Basic
import BlockLang.Settings
import BlockLang.Text.Fold
import BlockLang.Toml.Read

/-! Settings from a file. The file is a document with tables for the warnings, the features, the
machine and the log. It is looked for in a folder and then in the folders above it. -/

namespace BlockLang

/-- What a settings file says. -/
structure SettingsFile where
  warnings : List (String × Bool) := []
  features : List (String × Bool) := []
  trace : Bool := false
  leakCheck : Bool := false
  verbosity : Int := 0
  /-- The keys that say something. -/
  known : List Toml.Key := []
  deriving DecidableEq, Repr, Inhabited

/-- Why a settings file is refused. -/
inductive FileProblem where
  | unreadable
  | unknownKey (key : Toml.Key)
  | unknownName (e : SettingsError)
  deriving DecidableEq, Repr, Inhabited

/-- A problem with the settings file at a path. -/
structure SettingsFileError where
  path : String
  problem : FileProblem
  deriving DecidableEq, Repr, Inhabited

/-- How a problem with a settings file is worded. Why a file could not be opened, or where it breaks
the rules of its format, is left out. -/
def SettingsFileError.message (e : SettingsFileError) : String :=
  match e.problem with
  | .unreadable => "parse error in " ++ e.path
  | .unknownKey key => e.path ++ ": unknown key '" ++ Toml.keyText key ++ "'"
  | .unknownName cause => e.path ++ ": " ++ cause.message

namespace SettingsFile

def switches? (t : Toml.Table) : Option (List (String × Bool)) :=
  t.mapM fun (name, v) =>
    match v with
    | .boolean b => some (name, b)
    | _ => none

/-- Takes a named value of the machine's table. -/
def takeMachine (part : String) (f : SettingsFile) (entry : String × Toml.Value) :
    Option SettingsFile :=
  match Text.nameOf? ["trace", "leak-check"] entry.1, entry.2 with
  | some "trace", .boolean b => some { f with trace := b, known := [part, entry.1] :: f.known }
  | some _, .boolean b => some { f with leakCheck := b, known := [part, entry.1] :: f.known }
  | some _, _ => none
  | none, _ => some f

/-- Takes a named value of the log's table. -/
def takeLog (part : String) (f : SettingsFile) (entry : String × Toml.Value) :
    Option SettingsFile :=
  match Text.nameOf? ["verbosity"] entry.1, entry.2 with
  | some _, .integer n => some { f with verbosity := n, known := [part, entry.1] :: f.known }
  | some _, _ => none
  | none, _ => some f

/-- Takes a named value of the document. A value of the wrong kind makes the document unreadable,
but warnings and features that are no table say nothing. -/
def takeEntry (f : SettingsFile) (entry : String × Toml.Value) : Option SettingsFile :=
  let (part, v) := entry
  match Text.nameOf? ["warnings", "features", "vm", "log"] part with
  | none => some f
  | some name =>
    let f := { f with known := [part] :: f.known }
    let named (t : Toml.Table) : List Toml.Key := t.map fun (n, _) => [part, n]
    match name, v with
    | "warnings", .table t => do
      let switches ← switches? t
      return { f with warnings := f.warnings ++ switches, known := named t ++ f.known }
    | "features", .table t => do
      let switches ← switches? t
      return { f with features := f.features ++ switches, known := named t ++ f.known }
    | "warnings", _ | "features", _ => some f
    | "vm", .table t => t.foldlM (takeMachine part) f
    | "log", .table t => t.foldlM (takeLog part) f
    | _, _ => none

def ofDocument? (doc : Toml.Document) : Option SettingsFile := doc.root.foldlM takeEntry {}

/-- The first key of a document that says nothing. -/
def unknownKey? (f : SettingsFile) (doc : Toml.Document) : Option Toml.Key :=
  doc.keys.find? fun key => !f.known.contains key

/-- The order in which switches of warnings are obeyed: `all` first, then by name. -/
def before (a b : String × Bool) : Bool :=
  a.1 = "all" || (b.1 ≠ "all" && decide (a.1 ≤ b.1))

/-- Obeys named switches up to the first whose name says nothing. -/
def obey (set : Settings → String → Bool → Except SettingsError Settings) (s : Settings) :
    List (String × Bool) → Settings × Option SettingsError
  | [] => (s, none)
  | (name, on) :: rest =>
    match set s name on with
    | .ok s => obey set s rest
    | .error e => (s, some e)

/-- Obeys a settings file. What comes before a name that says nothing is obeyed. -/
def apply (f : SettingsFile) (s : Settings) : Settings × Option SettingsError :=
  match obey Settings.setWarningNamed s (f.warnings.mergeSort before) with
  | (s, some e) => (s, some e)
  | (s, none) =>
    match obey Settings.setFeatureNamed s f.features with
    | (s, some e) => (s, some e)
    | (s, none) =>
      ({ s with
          trace := s.trace || f.trace
          leakCheck := s.leakCheck || f.leakCheck
          verbosity := if f.verbosity = 0 then s.verbosity else Int64.ofInt f.verbosity }, none)

end SettingsFile

namespace Settings

def fileName : String := "swindle.toml"

def loadBytes (s : Settings) (content : List UInt8) : Settings × Option FileProblem :=
  match Toml.read? content with
  | none => (s, some .unreadable)
  | some doc =>
    match SettingsFile.ofDocument? doc with
    | none => (s, some .unreadable)
    | some f =>
      match f.unknownKey? doc, s.warns .extra with
      | some key, true => (s, some (.unknownKey key))
      | _, _ => ((f.apply s).1, (f.apply s).2.map .unknownName)

def load (s : Settings) (disk : Disk) (path : String) : Settings × Option SettingsFileError :=
  match disk.read path with
  | .error _ => (s, some ⟨path, .unreadable⟩)
  | .ok content =>
    let (s, problem) := s.loadBytes content
    (s, problem.map fun p => ⟨path, p⟩)

/-- Why settings could not be found. -/
inductive FindError where
  | disk (e : DiskError)
  | file (e : SettingsFileError)
  deriving DecidableEq, Repr, Inhabited

/-- How a failure to find settings is worded. -/
def FindError.message : FindError → String
  | disk e => e.message
  | file e => e.message

/-- The result of a search: the settings, the path of the file that was found, and what went
wrong. -/
structure Found where
  settings : Settings
  path : Option String
  error : Option FindError

/-- Looks for a settings file in a folder, given by its parts with the last one first, and then in
the folders above it. -/
def findFrom (s : Settings) (disk : Disk) (folder : List String) : Found :=
  let path := Path.ofParts (folder.reverse ++ [fileName])
  match disk.stat path with
  | .ok _ =>
    let (s, error) := s.load disk path
    ⟨s, some path, error.map .file⟩
  | .error e =>
    if e.cause ≠ .missing then ⟨s, none, some (.disk e)⟩
    else
      match folder with
      | [] => ⟨s, none, none⟩
      | _ :: above => findFrom s disk above

/-- Looks for a settings file in a folder and the folders above it, and obeys it. -/
def find (s : Settings) (disk : Disk) (folder : String) : Found :=
  findFrom s disk (Path.absolute disk.cwd folder).reverse

end Settings

end BlockLang

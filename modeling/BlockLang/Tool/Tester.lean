import BlockLang.CommandLine.App
import BlockLang.Golden.Suite
import BlockLang.Tool.Compiler

/-! The command line tool that records the behaviour of programs and compares it with earlier
records. It starts another program, which is the compiler if its path leads to an installed one. -/

namespace BlockLang.TesterTool

def app : App where
  name := "gtest"
  synopsis := "[options] [check|golden]"
  description := "Runs each program with 'swindle run' and 'swindle build' followed by 'swindle "
    ++ "exec', and compares both against the golden file '.<name>.sw.json'."
  authors := ["xplshn"]
  repository := ""
  since := 2025
  default := "check"
  commands := [
    ⟨"check", "", "Compare every test file against its golden file"⟩,
    ⟨"golden", "[file.sw...]", "Record golden files (for every test file when none are given)"⟩]

def ownFlags : List Flag := [
  Flag.ofText "binary" "b" "./swindle" "Path to the swindle binary under test." "path",
  Flag.ofText "binary-args" "" ""
    "Extra arguments passed to every swindle invocation (space-separated)." "args",
  Flag.ofText "test-files" "" "tests/*.sw" "Glob pattern(s) for files to test (space-separated)."
    "glob",
  Flag.ofText "skip-files" "" "" "Files to skip (space-separated)." "files",
  Flag.ofText "output" "o" ".test_results.json" "Output file for the JSON test report." "file",
  Flag.ofText "ignore-lines" "" ""
    "Comma-separated substrings to ignore during output comparison." "list",
  Flag.ofValue "timeout" "" (.duration ⟨5000000000⟩) "Timeout for each command execution."
    "duration",
  Flag.ofValue "jobs" "j" (.number 4) "Number of parallel test jobs." "n",
  Flag.ofSwitch "verbose" "v" false "Print every run, not only failures."]

def flags : Except DefineError FlagSet := ownFlags.foldlM FlagSet.define {}

/-- Why a program cannot be started. -/
inductive StartError where
  | notFound
  | denied
  | isAFolder
  | disk (cause : DiskCause)
  deriving DecidableEq, Repr, Inhabited

/-- Looks for a program. A name without a slash is looked for among the installed programs, of which
there are none. -/
def locate (d : Disk) (binary : String) : Except StartError Unit :=
  if !binary.toList.contains '/' then .error .notFound
  else
    match d.lookup binary with
    | .error cause => .error (.disk cause)
    | .ok .folder => .error .isAFolder
    | .ok (.file _) => .error .denied
    | .ok .program => .ok ()

/-- The start of every message about a program that was looked for in vain. -/
def lookupMessage (binary : String) (e : StartError) : String :=
  "exec: " ++ Text.quote binary ++ ": " ++ match e with
    | .notFound => "executable file not found in $PATH"
    | .denied => "permission denied"
    | .isAFolder => "is a directory"
    | .disk cause => DiskError.message ⟨"stat", binary, cause⟩

/-- How a failure to start a program is worded. -/
def startMessage (binary : String) (e : StartError) : String :=
  match e with
  | .notFound => lookupMessage binary e
  | .denied | .isAFolder => "fork/exec " ++ binary ++ ": permission denied"
  | .disk cause => DiskError.message ⟨"fork/exec", binary, cause⟩

/-- The steps that a program may take in a millisecond of its time. -/
def stepsPerMillisecond : Nat := 2000

/-- The milliseconds that pass before a program takes its first step. -/
def startingTime : Nat := 1

/-- What there is to say about the compiler when it has ended. -/
def executionOf (o : Outcome) : Execution :=
  match o.status with
  | .exited code => { stdout := o.out, stderr := o.err, exitCode := code }
  | .cutOff => { stdout := o.out, stderr := o.err, exitCode := -1, timedOut := true }

/-- Starts a program and waits for it as long as `timeout` says. -/
def start (years : String) (env : Environment) (binary : String) (timeout : Duration) (d : Disk)
    (arguments : List String) : Execution × Disk :=
  let milliseconds := (timeout.nanos / 1000000).toNat
  if milliseconds ≤ startingTime then ({ exitCode := -1, timedOut := true }, d)
  else
    match locate d binary with
    | .error e =>
      ({ exitCode := -2, stderr := "\nExecution error: " ++ startMessage binary e }, d)
    | .ok () =>
      let o := CompilerTool.start years (milliseconds * stepsPerMillisecond) env d arguments
      (executionOf o, o.disk)

/-- The folder for temporary files. -/
def folder : List String := ["tmp", "gtest-0"]

/-- The tests that the flags ask for. -/
def rigOf (years : String) (env : Environment) (f : FlagSet) : Rig where
  start := start years env (f.textOf "binary") (f.durationOf "timeout")
  extra := Text.words (f.textOf "binary-args")
  folder := Path.ofParts folder
  ignored := Comparison.ignoredOf (f.textOf "ignore-lines")
  timeout := f.durationOf "timeout"

/-- Ends the action with an error message. -/
def fail {α : Type} (message : String) : Act α :=
  throw (.told (Suite.red ++ "[ERROR]" ++ Suite.plain ++ " " ++ message ++ "\n"))

/-- Takes the value of a result or ends the action with its error. -/
def orFail {ε α : Type} (message : ε → String) : Except ε α → Act α
  | .ok a => pure a
  | .error e => fail (message e)

def writeReport (path : String) (results : List TestResult) : Act Unit := do
  match (← get).disk.write path (Text.encode (Suite.report results).toText) with
  | .ok disk =>
    modify fun s => { s with disk }
    Act.print ("Full test report saved to " ++ path ++ "\n")
  | .error e =>
    Act.log ⟨.error, "swindle.gtest",
      "failed to write JSON report to " ++ path ++ ": " ++ e.message⟩

/-- Compares every program with its record. -/
def check (rig : Rig) (f : FlagSet) : Act Unit := do
  let binary := f.textOf "binary"
  orFail (fun e => "swindle binary '" ++ binary ++ "' not found: " ++ lookupMessage binary e)
    (locate (← get).disk binary)
  let files ← orFail Suite.BadPattern.message (Suite.files (← get).disk (f.textOf "test-files"))
  if files.isEmpty then Act.print "No test files found matching the pattern(s).\n"
  else
    let p := Suite.run rig (← get).disk (f.numberOf "jobs").toInt
      (Text.words (f.textOf "skip-files")) files
    modify fun s => { s with disk := p.disk }
    CompilerTool.logAll p.notes
    Act.print (Suite.summary (f.isOn "verbose") p.results)
    writeReport (f.textOf "output") p.results
    if Suite.hasFailed p.results then fail "some tests failed"

/-- Records the behaviour of a program. -/
def record (rig : Rig) (file : String) : Act Unit := do
  let content ← orFail (fun e => "could not hash " ++ file ++ ": " ++ DiskError.message e)
    ((← get).disk.read file)
  let (run, disk) := rig.run (← get).disk file
  modify fun s => { s with disk }
  if run.timedOut then fail (file ++ " timed out; refusing to record it")
  let golden : Golden := { sourceHash := Golden.hashText content, run }
  let path := goldenPath file
  let disk ← orFail (fun e => "failed to write golden file " ++ path ++ ": " ++ DiskError.message e)
    (disk.write path (Text.encode golden.toJson.toText))
  modify fun s => { s with disk }
  Act.print
    (Suite.green ++ "[SUCCESS]" ++ Suite.plain ++ " Golden file created at " ++ path ++ "\n")

/-- Records the behaviour of programs, in order. -/
def recordAll (rig : Rig) : List String → Act Unit
  | [] => pure ()
  | file :: rest => do
    record rig file
    recordAll rig rest

def perform (rig : Rig) (f : FlagSet) (command : String) (args : List String) : Act Unit := do
  if command = "check" then check rig f
  else if args.isEmpty then
    recordAll rig (← orFail Suite.BadPattern.message
      (Suite.files (← get).disk (f.textOf "test-files")))
  else recordAll rig args

def obey (years : String) (env : Environment) (arguments : List String) : Act Unit := do
  match flags with
  | .error e => throw (.crashed e.message)
  | .ok f =>
    match app.request f arguments with
    | .error e => throw (.crashed e.message)
    | .ok (f, .misuse message) =>
      Act.printError (app.complaint f message)
      throw .misused
    | .ok (f, .help) => Act.print ((app.helpPage? f years).getD "")
    | .ok (f, .run command args) =>
      modify fun s =>
        { s with
          disk := s.disk.ensureFolders [] folder
          settings := { s.settings with verbosity := if f.isOn "verbose" then 1 else 0 } }
      perform (rigOf years env f) f command.name args

/-- A disk without the folder for temporary files. -/
def cleaned (d : Disk) : Disk :=
  { d with nodes := d.nodes.filter fun (place, _) => !folder.isPrefixOf place }

/-- Runs the tool on a disk. The temporary files are gone afterwards. -/
def launch (years : String) (env : Environment) (disk : Disk) (arguments : List String) : Outcome :=
  let o := (obey years env arguments).perform disk
  { o with disk := cleaned o.disk }

end BlockLang.TesterTool

import BlockLang.Disk.Basic
import BlockLang.Golden.Verdict
import BlockLang.Log

/-! Testing one program. A test runs the source, then builds it into a folder for temporary files
and runs what was built. Each of these is a step of its own, so that the steps of several tests can
be taken in any order on one disk. -/

namespace BlockLang

/-- What tests have in common: the program under test, which is started with arguments on a disk,
and how its runs are judged. -/
structure Rig where
  start : Disk → List String → Execution × Disk
  /-- Arguments in front of the others. -/
  extra : List String
  /-- The folder for temporary files. -/
  folder : String
  ignored : List String
  timeout : Duration

namespace Rig

def run (rig : Rig) (d : Disk) (file : String) : Execution × Disk :=
  rig.start d (rig.extra ++ ["run", file])

/-- Where the built form of a program lies. -/
def compiledPath (rig : Rig) (file : String) : String :=
  Path.join rig.folder (Path.base file ++ "bc")

def build (rig : Rig) (d : Disk) (file : String) : Execution × Disk :=
  rig.start d (rig.extra ++ ["build", "-o", rig.compiledPath file, file])

/-- Runs the built form of a program. -/
def exec (rig : Rig) (d : Disk) (file : String) : Execution × Disk :=
  rig.start d (rig.extra ++ ["exec", rig.compiledPath file])

end Rig

/-- The path of the record of a program. -/
def goldenPath (file : String) : String :=
  Path.join (Path.folder file) ("." ++ Path.base file ++ ".json")

/-- Where a test is: it has not begun, it has run the source, it has built it, or it is over. -/
inductive Job where
  | waiting (file : String)
  | ran (file : String) (golden : Golden) (run : Execution) (diff : String)
  | built (file : String) (golden : Golden) (run : Execution) (diff : String)
  | done (result : TestResult)
  deriving DecidableEq, Repr, Inhabited

namespace Job

/-- The verdict on a program whose runs differ from the record as `diff` says. -/
def judge (file : String) (golden : Golden) (run : Execution) (exec : Option Execution)
    (diff : String) : TestResult :=
  if diff = "" then
    { file, verdict := .pass, message := "Output matches golden file", golden := some golden
      run := some run, exec }
  else
    { file, verdict := .fail, message := "Output or exit code mismatch", diff
      golden := some golden, run := some run, exec }

/-- What is logged about a program that is not the recorded one. -/
def staleNote (d : Disk) (file : String) (golden : Golden) : List LogEntry :=
  match d.read file with
  | .ok content =>
    if Golden.hashText content = golden.sourceHash then []
    else [⟨.warning, "swindle.gtest", file ++ " changed since its golden file was recorded"⟩]
  | .error _ => []

/-- Runs the source of a program that has a record. Of a record that cannot be read, the message does
not say what is wrong with it. -/
def begin (rig : Rig) (d : Disk) (file : String) : Job × Disk × List LogEntry :=
  match d.read (goldenPath file) with
  | .error _ =>
    (.done { file, verdict := .skip
             message := "No golden file; run 'gtest golden " ++ file ++ "'" }, d, [])
  | .ok content =>
    match Golden.ofBytes? content with
    | none => (.done { file, verdict := .error, message := "Could not parse golden file" }, d, [])
    | some golden =>
      let notes := staleNote d file golden
      let (run, d) := rig.run d file
      (.ran file golden run (Comparison.describe rig.ignored rig.timeout "run" golden.run run), d,
        notes)

/-- Builds a program whose recorded run ended well. -/
def build (rig : Rig) (d : Disk) (file : String) (golden : Golden) (run : Execution)
    (diff : String) : Job × Disk :=
  if golden.run.exitCode ≠ 0 then (.done (judge file golden run none diff), d)
  else
    let (build, d) := rig.build d file
    if build.exitCode ≠ 0 ∨ build.timedOut then
      let failed := "build failed with exit code " ++ toString build.exitCode ++ ":\n"
        ++ build.stderr
      (.done (judge file golden run none (diff ++ failed)), d)
    else (.built file golden run diff, d)

def exec (rig : Rig) (d : Disk) (file : String) (golden : Golden) (run : Execution)
    (diff : String) : Job × Disk :=
  let (exec, d) := rig.exec d file
  let more := Comparison.describe rig.ignored rig.timeout "exec" golden.run exec
  (.done (judge file golden run (some exec) (diff ++ more)), d)

/-- Takes the next step of a test. -/
def step (rig : Rig) (d : Disk) : Job → Job × Disk × List LogEntry
  | waiting file => begin rig d file
  | ran file golden run diff =>
    let (job, d) := build rig d file golden run diff
    (job, d, [])
  | built file golden run diff =>
    let (job, d) := exec rig d file golden run diff
    (job, d, [])
  | done result => (done result, d, [])

end Job

end BlockLang

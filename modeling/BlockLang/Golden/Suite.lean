import BlockLang.Disk.Pattern
import BlockLang.Golden.Pool

/-! A suite of tests: the programs that patterns stand for, the tests of those that are not skipped,
and the summary. -/

namespace BlockLang.Suite

/-- Why no suite can be tested. -/
structure BadPattern where
  pattern : String
  deriving DecidableEq, Repr, Inhabited

/-- How a malformed pattern is worded. -/
def BadPattern.message (e : BadPattern) : String :=
  "bad pattern " ++ e.pattern ++ ": syntax error in pattern"

/-- Adds the files among some paths to a list, each of them once and from the root on. -/
def addFiles (d : Disk) (found : List String) (paths : List String) : List String :=
  paths.foldl (fun found path =>
    let place := Path.absolute d.cwd path
    let file := Path.ofParts place
    match d.at? place with
    | some .folder | none => found
    | some _ => if found.contains file then found else found ++ [file]) found

/-- The files that patterns with blanks between them stand for. -/
def files (d : Disk) (patterns : String) : Except BadPattern (List String) :=
  (Text.words patterns).foldlM (fun found pattern =>
    match Pattern.paths? d pattern with
    | none => .error ⟨pattern⟩
    | some paths => .ok (addFiles d found paths)) []

/-- Tests files with a number of jobs; the results are sorted by file. There is at least one job, and
no more of them than files ever find something to do. -/
def run (rig : Rig) (d : Disk) (jobs : Int) (skipped files : List String) : Pool :=
  let workers := min (max 1 jobs).toNat files.length
  let p := (Pool.start d workers files).run rig skipped (Pool.turns workers files.length)
  { p with results := p.results.mergeSort fun a b => decide (a.file ≤ b.file) }

/-- The report on a suite: the results by file. -/
def report (results : List TestResult) : Json.Value :=
  .object (results.map fun r => (r.file, r.toJson))

def hasFailed (results : List TestResult) : Bool :=
  results.any fun r => r.verdict = .fail || r.verdict = .error

/-- Turns on a colour. -/
def red : String := "\x1b[91m"

@[inherit_doc red]
def yellow : String := "\x1b[93m"

@[inherit_doc red]
def green : String := "\x1b[92m"

@[inherit_doc red]
def cyan : String := "\x1b[96m"

def bold : String := "\x1b[1m"

/-- Turns off colours and bold letters. -/
def plain : String := "\x1b[0m"

/-- A line between the parts of the summary. -/
def rule : String := "".pushn '-' 70 ++ "\n"

/-- The difference of a run from its record, with the lines of either side in colour. -/
def diffText (diff : String) : String :=
  let line (s : String) : String :=
    let colour := match Text.trim s.toList with
      | '-' :: _ => red
      | '+' :: _ => green
      | _ => ""
    colour ++ "    " ++ s ++ plain ++ "\n"
  if diff = "" then "" else "    --- Diff ---\n" ++ String.join ((Comparison.lines diff).map line)

def colourOf : Verdict → String
  | .pass => green
  | .fail | .error => red
  | .skip => yellow

/-- The part of the summary about one program. -/
def resultText (verbose : Bool) (r : TestResult) : String :=
  let time (name : String) (e : Option Execution) : String :=
    match e with
    | some e => if verbose then "  " ++ name ++ ": " ++ e.duration.column ++ "\n" else ""
    | none => ""
  rule ++ "Testing " ++ cyan ++ r.file ++ plain ++ "...\n"
    ++ "  [" ++ colourOf r.verdict ++ r.verdict.name ++ plain ++ "] " ++ r.message ++ "\n"
    ++ (if r.verdict = .fail then diffText r.diff ++ "\n" else "")
    ++ time "run" r.run ++ time "exec" r.exec

/-- The summary of a suite. Programs that pass are only counted unless everything is shown. -/
def summary (verbose : Bool) (results : List TestResult) : String :=
  let count (v : Verdict) : String := toString (results.countP (·.verdict = v))
  let shown := results.filter fun r => verbose || r.verdict ≠ .pass
  String.join (shown.map (resultText verbose)) ++ rule
    ++ bold ++ "Test Summary:" ++ plain ++ " " ++ green ++ count .pass ++ " Passed" ++ plain
    ++ ", " ++ red ++ count .fail ++ " Failed" ++ plain
    ++ ", " ++ yellow ++ count .skip ++ " Skipped" ++ plain
    ++ ", " ++ red ++ count .error ++ " Errored" ++ plain
    ++ ", " ++ toString results.length ++ " Total\n"

end BlockLang.Suite

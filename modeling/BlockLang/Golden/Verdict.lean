import BlockLang.Golden.Basic
import BlockLang.Text.Blank

/-! Comparing runs with records, and what is said about a program. -/

namespace BlockLang

/-- What is said about a program. -/
inductive Verdict where
  | pass
  | fail
  | skip
  | error
  deriving DecidableEq, Repr, Inhabited

def Verdict.name : Verdict → String
  | pass => "PASS"
  | fail => "FAIL"
  | skip => "SKIP"
  | error => "ERROR"

/-- The result of the test of a program. -/
structure TestResult where
  file : String
  verdict : Verdict
  message : String
  diff : String := ""
  golden : Option Golden := none
  run : Option Execution := none
  exec : Option Execution := none
  deriving DecidableEq, Repr, Inhabited

/-- A result as data; what is absent or empty is left out. -/
def TestResult.toJson (r : TestResult) : Json.Value :=
  let text (name s : String) : List (String × Json.Value) :=
    if s = "" then [] else [(name, .text s)]
  .object ([("file", .text r.file), ("status", .text r.verdict.name)]
    ++ text "message" r.message ++ text "diff" r.diff
    ++ (r.golden.map fun g => ("golden", g.toJson)).toList
    ++ (r.run.map fun e => ("run", e.toJson)).toList
    ++ (r.exec.map fun e => ("exec", e.toJson)).toList)

namespace Comparison

def occursIn (part : List Char) : List Char → Bool
  | [] => part.isEmpty
  | c :: rest => part.isPrefixOf (c :: rest) || occursIn part rest

def lines (output : String) : List String := (output.toList.splitOn '\n').map String.ofList

/-- An output without the lines in which one of some texts occurs. The empty text is passed over. -/
def withoutLines (ignored : List String) (output : String) : String :=
  if ignored.isEmpty then output
  else
    let kept (line : String) : Bool :=
      !ignored.any fun part => part ≠ "" && occursIn part.toList line.toList
    "\n".intercalate ((lines output).filter kept)

/-- The texts of a list with commas between them. -/
def ignoredOf (list : String) : List String := if list = "" then [] else list.splitOn ","

/-- Two outputs, line by line, as they differ. -/
def lineDiff (want got : String) : String :=
  let side (mark : String) (s : String) : String :=
    String.join ((lines s).map fun line => mark ++ " " ++ line ++ "\n")
  side "-" want ++ side "+" got

/-- How a run differs from the recorded one; empty if it does not. `name` says which run it is, and
a run that was cut off after `timeout` differs in that alone. -/
def describe (ignored : List String) (timeout : Duration) (name : String) (want got : Execution) :
    String :=
  let quoted := "'" ++ name ++ "'"
  if got.timedOut then quoted ++ " timed out after " ++ timeout.toText ++ "\n"
  else
    let exit :=
      if want.exitCode ≠ got.exitCode then
        quoted ++ " exit code mismatch:\n  - Golden: " ++ toString want.exitCode
          ++ "\n  - Got:    " ++ toString got.exitCode ++ "\n"
      else ""
    let output (title want got : String) : String :=
      if withoutLines ignored want ≠ withoutLines ignored got then
        quoted ++ " " ++ title ++ " mismatch:\n" ++ lineDiff want got
      else ""
    exit ++ output "STDOUT" want.stdout got.stdout ++ output "STDERR" want.stderr got.stderr

end Comparison

end BlockLang

import BlockLang.Cache
import BlockLang.Settings
import BlockLang.Text.Pad

/-! A session of a command line tool: what it has written so far, the disk it works on, and the
settings in force. An action that fails keeps what was written before. -/

namespace BlockLang

/-- What a tool leaves behind when it ends. -/
structure Session where
  disk : Disk
  out : String := ""
  err : String := ""
  settings : Settings := {}

/-- Why an action of a tool ends early. -/
inductive Failure where
  /-- The user is told; the text is ready to be shown. -/
  | told (text : String)
  /-- The user has been told already. -/
  | misused
  /-- The tool breaks down. -/
  | crashed (message : String)
  /-- A program was still running when it was cut off. -/
  | cutOff
  deriving DecidableEq, Repr, Inhabited

abbrev Act := ExceptT Failure (StateM Session)

namespace Act

def print (text : String) : Act Unit := modify fun s => { s with out := s.out ++ text }

def printError (text : String) : Act Unit := modify fun s => { s with err := s.err ++ text }

/-- A log entry as it is shown: the word for its level stands on the right of five columns. -/
def logLine (e : LogEntry) : String :=
  Text.padLeft 5 e.level.name ++ " [" ++ e.logger ++ "] " ++ e.text ++ "\n"

/-- Shows a log entry if the verbosity reaches its level. -/
def log (e : LogEntry) : Act Unit := do
  if e.level.threshold ≤ (← get).settings.verbosity.toInt then printError (logLine e)

/-- Shows what happened during a compilation. -/
def showEvents (sources : Sources) : List Event → Act Unit
  | [] => pure ()
  | .logged e :: rest => do
    log e
    showEvents sources rest
  | .noticed n :: rest => do
    if (← get).settings.warns n.concern.warning then printError (sources.showNotice n)
    showEvents sources rest

/-- Ends the action with a message about an error. -/
def fail {α : Type} (message : String) : Act α := throw (.told (plainReport message))

/-- Takes the value of a result or ends the action with its error. -/
def orFail {ε α : Type} (message : ε → String) : Except ε α → Act α
  | .ok a => pure a
  | .error e => fail (message e)

/-- Ends the action with an error of a compilation. -/
def failCompile {α : Type} (sources : Sources) (e : CompileError) : Act α :=
  match e.diagnostic? with
  | some d => throw (.told ((sources.report? d).getD ""))
  | none => throw (.crashed e.message)

/-- Takes the result of a compilation after showing what happened. -/
def take {α : Type} (sources : Sources) (c : Compiled α) : Act α := do
  showEvents sources c.events
  match c.result with
  | .ok a => pure a
  | .error e => failCompile sources e

end Act

/-- How a tool ended. -/
inductive Status where
  | exited (code : Nat)
  | cutOff
  deriving DecidableEq, Repr, Inhabited

/-- What a tool has done. -/
structure Outcome where
  status : Status
  out : String
  err : String
  disk : Disk

/-- Performs an action on a disk. Errors give the exit code 1, a breakdown gives 2. -/
def Act.perform (a : Act Unit) (disk : Disk) : Outcome :=
  let (result, s) := a.run.run { disk }
  let ended (status : Status) (err : String) : Outcome := ⟨status, s.out, s.err ++ err, s.disk⟩
  match result with
  | .ok () => ended (.exited 0) ""
  | .error (.told text) => ended (.exited 1) text
  | .error .misused => ended (.exited 1) ""
  | .error (.crashed message) => ended (.exited 2) ("panic: " ++ message ++ "\n")
  | .error .cutOff => ended .cutOff ""

end BlockLang

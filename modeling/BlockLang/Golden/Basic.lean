import BlockLang.Digest
import BlockLang.Duration
import BlockLang.Json.Read
import BlockLang.Text.Decimal
import BlockLang.Text.Fold

/-! Recorded runs. The behaviour of a program is recorded as what a run of it wrote and how it
ended, together with the hash of the program, in a file beside the program. -/

namespace BlockLang

/-- What a run wrote and how it ended. -/
structure Execution where
  stdout : String := ""
  stderr : String := ""
  exitCode : Int := 0
  duration : Duration := ⟨0⟩
  timedOut : Bool := false
  deriving DecidableEq, Repr, Inhabited

/-- The recorded behaviour of a program. -/
structure Golden where
  sourceHash : String := ""
  run : Execution := {}
  deriving DecidableEq, Repr, Inhabited

namespace Execution

def toJson (e : Execution) : Json.Value :=
  .object [("stdout", .text e.stdout), ("stderr", .text e.stderr),
    ("exitCode", Json.ofInt e.exitCode), ("duration", Json.ofInt e.duration.nanos),
    ("timed_out", .boolean e.timedOut)]

/-- A whole number of 64 bits. -/
def integer? (text : String) : Option Int := (Text.readSigned text.toList).toOption

/-- Takes an entry of the data of a run. Nothing in place of a value leaves the value as it is, and
entries with other names say nothing. -/
def take (e : Execution) (entry : String × Json.Value) : Option Execution :=
  match Text.nameOf? ["stdout", "stderr", "exitCode", "duration", "timed_out"] entry.1, entry.2 with
  | none, _ | some _, .null => some e
  | some "stdout", .text s => some { e with stdout := s }
  | some "stderr", .text s => some { e with stderr := s }
  | some "exitCode", .number n => (integer? n).map fun n => { e with exitCode := n }
  | some "duration", .number n => (integer? n).map fun n => { e with duration := ⟨n⟩ }
  | some "timed_out", .boolean b => some { e with timedOut := b }
  | some _, _ => none

end Execution

namespace Golden

def toJson (g : Golden) : Json.Value :=
  .object [("source_hash", .text g.sourceHash), ("run", g.run.toJson)]

/-- Takes an entry of the data of a record. -/
def take (g : Golden) (entry : String × Json.Value) : Option Golden :=
  match Text.nameOf? ["source_hash", "run"] entry.1, entry.2 with
  | none, _ | some _, .null => some g
  | some "source_hash", .text s => some { g with sourceHash := s }
  | some "run", .object entries =>
    (entries.foldlM Execution.take g.run).map fun run => { g with run }
  | some _, _ => none

/-- The record that data stand for. -/
def ofJson? : Json.Value → Option Golden
  | .null => some {}
  | .object entries => entries.foldlM take {}
  | _ => none

/-- The record that is stored as bytes. -/
def ofBytes? (bytes : List UInt8) : Option Golden := Json.read? bytes >>= ofJson?

/-- The hash of a program as a record shows it. -/
def hashText (bytes : List UInt8) : String :=
  String.ofList (Nat.toDigits 16 (Digest.ofBytes bytes).toNat)

end Golden

end BlockLang

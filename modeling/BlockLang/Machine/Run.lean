import BlockLang.Log
import BlockLang.Machine.Step
import BlockLang.Text.Pad
import BlockLang.Text.Quoted

/-! Running a program: the machine is prepared, steps are taken until the code ends or fails, and
then everything that the stack and the slots still hold is given up. The output is held back until
then and handed over as a whole. A run that takes many steps is cut into pieces, and a finished
machine can be run again; only the heap's freed numbers tell its second run from its first. -/

namespace BlockLang

namespace Machine

/-- Enters the places of the labels that a piece of code marks. -/
def markLabels : Nat → List Instr → Array (Option Nat) → Option (Array (Option Nat))
  | _, [], labels => some labels
  | index, i :: rest, labels =>
    if i.op? = some .label then
      if i.arg.toInt < 0 ∨ (labels.size : Int) ≤ i.arg.toInt then none
      else markLabels (index + 1) rest (labels.setIfInBounds i.arg.toInt.toNat (some index))
    else markLabels (index + 1) rest labels

/-- Prepares a program: one cell for each slot and label, and the place of each label. -/
def new (p : Program) : Except Fault (Machine × MachineState) :=
  if p.slotCount.toInt < 0 ∨ tableLimit < p.slotCount.toInt then .error .outOfRange
  else if p.labelCount.toInt < 0 ∨ tableLimit < p.labelCount.toInt then .error .outOfRange
  else
    match markLabels 0 p.instrs.toList (Array.replicate p.labelCount.toInt.toNat none) with
    | none => .error .outOfRange
    | some labels =>
      .ok (⟨p, labels⟩, { slots := Array.replicate p.slotCount.toInt.toNat .unit })

/-- Takes at most a number of steps; a run that is not over by then can be taken up again. -/
def loop (m : Machine) : Nat → MachineState → StepResult
  | 0, s => .running s
  | n + 1, s =>
    match m.step s with
    | .running s => m.loop n s
    | result => result

/-- Gives up the values of a list, in order. -/
def releaseAll : List Value → Exec Unit
  | [] => pure ()
  | v :: rest => do
    Exec.release v
    releaseAll rest

/-- Gives up what the stack and the slots hold. -/
def halt (s : MachineState) : Except Fault MachineState := do
  let (_, s) ← (releaseAll s.stack.reverse).run s
  let s := { s with stack := [] }
  let (_, s) ← (releaseAll s.slots.toList).run s
  return { s with slots := s.slots.map fun _ => .unit }

/-- The state in which a machine that has halted begins its next run. -/
def restart (s : MachineState) : MachineState := { s with ip := 0, output := "" }

def startMessage (m : Machine) (s : MachineState) : String :=
  "running " ++ toString m.program.instrs.size ++ " instructions, " ++ toString s.slots.size
    ++ " slots, " ++ toString m.program.constants.size ++ " strings"

def stepMessage (i : Instr) (s : MachineState) : String :=
  "[" ++ Text.padZeros 4 s.ip ++ "] " ++ Text.padRight 10 i.text ++ " sp="
    ++ toString s.stack.length

/-- The message when a run is over. -/
def haltMessage (s : MachineState) : String :=
  "halted at instruction " ++ toString s.ip ++ ", " ++ toString s.heap.live
    ++ " heap strings live"

def entry (level : LogLevel) (text : String) : LogEntry := ⟨level, "swindle.vm", text⟩

/-- A log entry and the state in which it was made. -/
structure Moment where
  entry : LogEntry
  state : MachineState

/-- The moments in front of each instruction, up to a number of steps, the last one first. -/
def moments (m : Machine) : Nat → MachineState → List Moment → List Moment
  | 0, _, acc => acc
  | n + 1, s, acc =>
    match m.program.instrs[s.ip]? with
    | none => acc
    | some i =>
      let acc := ⟨entry .debug (stepMessage i s), s⟩ :: acc
      match m.step s with
      | .running s => m.moments n s acc
      | _ => acc

/-- How a run ended. -/
inductive Ending where
  /-- The machine halted, with or without a run-time error. -/
  | halted (error : Option RuntimeError) (s : MachineState)
  | faulty (f : Fault)
  /-- The run was cut off. -/
  | unfinished (s : MachineState)
  deriving DecidableEq, Repr

/-- The result of a run: how it ended and what was logged. -/
structure Report where
  ending : Ending
  moments : List Moment

/-- Brings a run to its end: the machine halts and, if asked to, looks for strings that are still
alive. -/
def finish (leakCheck : Bool) (before : List Moment) : StepResult → Report
  | .running s => ⟨.unfinished s, before⟩
  | .faulty f => ⟨.faulty f, before⟩
  | .ended error s =>
    match halt s with
    | .error f => ⟨.faulty f, before⟩
    | .ok s =>
      let logged := before ++ [⟨entry .debug (haltMessage s), s⟩]
      if leakCheck && s.heap.live != 0 then ⟨.faulty (.leaked s.heap.live), logged⟩
      else ⟨.halted error s, logged⟩

/-- Runs a machine for at most a number of steps. The steps are logged only when traced. -/
def run (m : Machine) (trace leakCheck : Bool) (limit : Nat) (s : MachineState) : Report :=
  let start : Moment := ⟨entry .info (m.startMessage s), s⟩
  let steps := if trace then (m.moments limit s []).reverse else []
  finish leakCheck (start :: steps) (m.loop limit s)

/-- Why a run that has halted did not succeed: the program failed, or its output was refused. -/
inductive RunError where
  | runtime (e : RuntimeError)
  | unwritten (cause : String)
  deriving DecidableEq, Repr, Inhabited

def RunError.message : RunError → String
  | runtime e => e.message
  | unwritten cause => "writing output: " ++ cause

/-- Hands the output of a run that has halted over to a device: what the device has taken, and the
error of the run. A device with a `refusal` takes nothing. That is an error of its own if there was
something to take, but one that the program ended with comes first. -/
def deliver (refusal : Option String) (error : Option RuntimeError) (output : String) :
    String × Option RunError :=
  match refusal, error with
  | none, _ => (output, error.map .runtime)
  | some _, some e => ("", some (.runtime e))
  | some cause, none => ("", if output = "" then none else some (.unwritten cause))

/-- No output is lost without an error. -/
theorem deliver_complete {refusal : Option String} {error : Option RuntimeError}
    {output written : String} (h : deliver refusal error output = (written, none)) :
    error = none ∧ written = output := by
  cases refusal with
  | none =>
      obtain ⟨hwritten, herror⟩ := Prod.mk.inj h
      exact ⟨Option.map_eq_none_iff.mp herror, hwritten.symm⟩
  | some cause =>
      cases error with
      | some e => cases h
      | none =>
          obtain ⟨hwritten, hempty⟩ := Prod.mk.inj h
          by_cases houtput : output = ""
          · exact ⟨rfl, hwritten.symm.trans houtput.symm⟩
          · rw [if_neg houtput] at hempty
            cases hempty

/-- A value as it is shown in a trace, with count and content of a counted string. -/
def showValue (h : Heap) (v : Value) : String :=
  match v with
  | .heap id =>
    match h.find? id with
    | some r => v.text ++ " refs=" ++ toString r.refs ++ " " ++ Text.quote r.content
    | none => v.text
  | _ => v.text

end Machine

end BlockLang

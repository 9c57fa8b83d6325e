import BlockLang.Bytecode.Program
import BlockLang.Machine.Fault
import BlockLang.Machine.Heap
import BlockLang.Machine.Value

/-! One step of the machine. A machine is a program with the places of its labels; its state is the
next instruction, the operand stack, the slots of the variables, the heap, and the output so far. -/

namespace BlockLang

/-- A program that is ready to run, with the place of each label. -/
structure Machine where
  program : Program
  labels : Array (Option Nat)
  deriving DecidableEq, Repr, Inhabited

/-- The state of a run; the head of the stack is its top. -/
structure MachineState where
  ip : Nat := 0
  stack : List Value := []
  slots : Array Value
  heap : Heap := {}
  output : String := ""
  deriving DecidableEq, Repr, Inhabited

/-- A piece of a step: it may change the state and may end in a fault. -/
abbrev Exec := StateT MachineState (Except Fault)

namespace Exec

def fault {α : Type} (f : Fault) : Exec α := fun _ => .error f

def push (v : Value) : Exec Unit := modify fun s => { s with stack := v :: s.stack }

def pop : Exec Value := fun s =>
  match s.stack with
  | [] => .error (.underflow s.ip)
  | v :: stack => .ok (v, { s with stack })

def top : Exec Value := fun s =>
  match s.stack with
  | [] => .error (.underflow s.ip)
  | v :: _ => .ok (v, s)

def popInt : Exec Int64 := do
  match ← pop with
  | .int n => return n
  | v => fault (.wantsInt (← get).ip v.kindName)

def popBool : Exec Bool := do
  match ← pop with
  | .bool b => return b
  | v => fault (.wantsBool (← get).ip v.kindName)

/-- Counts one reference to a value more. -/
def retain (v : Value) : Exec Unit :=
  match v with
  | .heap id => fun s =>
    match s.heap.incr? id with
    | some heap => .ok ((), { s with heap })
    | none => .error (.notLive id)
  | _ => pure ()

/-- Counts one reference to a value less. -/
def release (v : Value) : Exec Unit :=
  match v with
  | .heap id => fun s =>
    match s.heap.decr? id with
    | some heap => .ok ((), { s with heap })
    | none => .error (.notLive id)
  | _ => pure ()

def pushNew (text : String) : Exec Unit := fun s =>
  let (id, heap) := s.heap.alloc text
  .ok ((), { s with heap, stack := .heap id :: s.stack })

/-- The content of a string. -/
def textOf (p : Program) (v : Value) : Exec String := fun s =>
  match v with
  | .const index =>
    match p.constant? index with
    | some text => .ok (text, s)
    | none => .error .outOfRange
  | .heap id =>
    match s.heap.find? id with
    | some r => .ok (r.content, s)
    | none => .error (.notLive id)
  | v => .error (.wantsString s.ip v.kindName)

def shown (p : Program) (v : Value) : Exec String :=
  if v.isString then textOf p v else pure v.text

def slot (arg : Int64) : Exec (Nat × Value) := fun s =>
  if arg.toInt < 0 then .error .outOfRange
  else
    match s.slots[arg.toInt.toNat]? with
    | some v => .ok ((arg.toInt.toNat, v), s)
    | none => .error .outOfRange

def setSlot (index : Nat) (v : Value) : Exec Unit :=
  modify fun s => { s with slots := s.slots.setIfInBounds index v }

/-- Goes on behind a label. -/
def jump (m : Machine) (label : Int64) : Exec Unit := fun s =>
  if label.toInt < 0 then .error .outOfRange
  else
    match m.labels[label.toInt.toNat]? with
    | none => .error .outOfRange
    | some none => .error (.unmarked label.toInt)
    | some (some target) => .ok ((), { s with ip := target })

def print (text : String) : Exec Unit := modify fun s => { s with output := s.output ++ text }

/-- What a value becomes as a string: strings stay what they are. -/
def stringify : Exec Unit := do
  match ← pop with
  | .const index => push (.const index)
  | .heap id => push (.heap id)
  | .int n => pushNew (toString n.toInt)
  | .bool b => pushNew (toString b)
  | .unit => pushNew ""

/-- Applies an operation to two integers, the first of which lies deeper. -/
def arith (f : Int64 → Int64 → Int64) : Exec Unit := do
  let b ← popInt
  let a ← popInt
  push (.int (f a b))

/-- Applies a division to two integers, or yields an error if the second is zero. -/
def divide (f : Int64 → Int64 → Int64) (cause : RuntimeCause) : Exec (Option RuntimeError) := do
  let b ← popInt
  let a ← popInt
  if b = 0 then return some ⟨(← get).ip, cause⟩
  else
    push (.int (f a b))
    return none

def compare (f : Int64 → Int64 → Bool) : Exec Unit := do
  let b ← popInt
  let a ← popInt
  push (.bool (f a b))

/-- Applies an operation to two truth values, both of which have been computed. -/
def logic (f : Bool → Bool → Bool) : Exec Unit := do
  let b ← popBool
  let a ← popBool
  push (.bool (f a b))

/-- Whether two values that are no strings are equal; values of two kinds cannot be compared. -/
def equal? : Value → Value → Option Bool
  | .unit, .unit => some true
  | .int a, .int b => some (a == b)
  | .bool a, .bool b => some (a == b)
  | _, _ => none

/-- Compares two values that are no strings. -/
def equality (wanted : Bool) : Exec Unit := do
  let b ← pop
  let a ← pop
  match equal? a b with
  | some same => push (.bool (same == wanted))
  | none => fault (.incomparable (← get).ip a.kindName b.kindName)

/-- The contents of the two strings on top of the stack, which are given up. -/
def popTexts (p : Program) : Exec (String × String) := do
  let b ← pop
  let a ← pop
  let left ← textOf p a
  let right ← textOf p b
  release a
  release b
  return (left, right)

/-- Prints the value on top of the stack. -/
def write (p : Program) (behind : String) : Exec Unit := do
  let v ← pop
  let text ← shown p v
  print (text ++ behind)
  release v

/-- Performs an instruction and says whether it raised a run-time error. A jump leaves the state at
its label. -/
def instr (m : Machine) (i : Instr) : Exec (Option RuntimeError) := do
  match i.op? with
  | none => fault (.unknownOp (← get).ip i.name)
  | some op =>
    match op with
    | .pushInt => push (.int i.arg); return none
    | .pushBool => push (.bool (i.arg != 0)); return none
    | .pushUnit => push .unit; return none
    | .pushString => push (.const i.arg); return none
    | .pop => release (← pop); return none
    | .load =>
      let (_, v) ← slot i.arg
      retain v
      push v
      return none
    | .declare =>
      let v ← pop
      let (index, old) ← slot i.arg
      release old
      setSlot index v
      return none
    | .assign =>
      let v ← top
      retain v
      let (index, old) ← slot i.arg
      release old
      setSlot index v
      return none
    | .neg => push (.int (-(← popInt))); return none
    | .not => push (.bool (!(← popBool))); return none
    | .stringify => stringify; return none
    | .add => arith (· + ·); return none
    | .sub => arith (· - ·); return none
    | .mul => arith (· * ·); return none
    | .div => divide (· / ·) .divisionByZero
    | .rem => divide (· % ·) .remainderByZero
    | .and => logic (· && ·); return none
    | .or => logic (· || ·); return none
    | .eq => equality true; return none
    | .ne => equality false; return none
    | .lt => compare (fun a b => decide (a < b)); return none
    | .le => compare (fun a b => decide (a ≤ b)); return none
    | .gt => compare (fun a b => decide (b < a)); return none
    | .ge => compare (fun a b => decide (b ≤ a)); return none
    | .strEq =>
      let (a, b) ← popTexts m.program
      push (.bool (a == b))
      return none
    | .strNe =>
      let (a, b) ← popTexts m.program
      push (.bool (a != b))
      return none
    | .append =>
      let (a, b) ← popTexts m.program
      pushNew (a ++ b)
      return none
    | .write => write m.program ""; return none
    | .writeln => write m.program "\n"; return none
    | .label => return none
    | .jump => jump m i.arg; return none
    | .jumpFalse =>
      if ← popBool then return none
      else
        jump m i.arg
        return none

end Exec

/-- What a step leads to. -/
inductive StepResult where
  /-- The run goes on. -/
  | running (s : MachineState)
  /-- The end of the code, or a run-time error, was reached. -/
  | ended (error : Option RuntimeError) (s : MachineState)
  | faulty (f : Fault)
  deriving Repr

/-- Performs the next instruction. -/
def Machine.step (m : Machine) (s : MachineState) : StepResult :=
  match m.program.instrs[s.ip]? with
  | none => .ended none s
  | some i =>
    match (Exec.instr m i).run s with
    | .error f => .faulty f
    | .ok (some e, s) => .ended (some e) s
    | .ok (none, s) => .running { s with ip := s.ip + 1 }

end BlockLang

import BlockLang.Bytecode.Op

/-! Compiled programs, and the test that a program from outside must pass before it is run. A
section of a program may be missing altogether, which reads as empty but is stored differently. -/

namespace BlockLang

/-- The largest number of cells of a table: a cell takes sixteen bytes, and memory ends at 2^48. -/
def tableLimit : Int := Int.pow 2 44

/-- A compiled program: instructions, string constants, the number of labels and slots, and the
hash of the source it was compiled from. -/
structure Program where
  code : Option (Array Instr) := none
  strings : Option (Array String) := none
  labelCount : Int64 := 0
  slotCount : Int64 := 0
  sourceHash : UInt64 := 0
  deriving DecidableEq, Repr, Inhabited

/-- What makes a program invalid. -/
inductive Invalid where
  | negativeSlots (count : Int)
  | negativeLabels (count : Int)
  | tooManyLabels (count : Int) (size : Nat)
  | unknownOp (index : Nat) (code : UInt8)
  | operandRange (index : Nat) (name : String) (arg : Int)
  | markedTwice (index : Nat) (label : Int)
  | neverMarked (label : Nat)
  deriving DecidableEq, Repr, Inhabited

/-- How a defect of a program is worded. -/
def Invalid.message : Invalid → String
  | negativeSlots count => "negative slot count " ++ toString count
  | negativeLabels count => "negative label count " ++ toString count
  | tooManyLabels count size =>
    "label count " ++ toString count ++ " exceeds instruction count " ++ toString size
  | unknownOp index code =>
    "instruction " ++ toString index ++ ": unknown opcode 0x" ++ Text.hexFixed 2 code.toNat
  | operandRange index name arg =>
    "instruction " ++ toString index ++ ": " ++ name ++ " operand " ++ toString arg
      ++ " out of range"
  | markedTwice index label =>
    "instruction " ++ toString index ++ ": label " ++ toString label ++ " marked twice"
  | neverMarked label => "label " ++ toString label ++ " is never marked"

namespace Program

def instrs (p : Program) : Array Instr := p.code.getD #[]

def constants (p : Program) : Array String := p.strings.getD #[]

def constant? (p : Program) (index : Int64) : Option String :=
  if index.toInt < 0 then none else p.constants[index.toInt.toNat]?

/-- The number of values that an operand of a sort may have, if it is bounded. -/
def limit? (p : Program) : Operand → Option Int
  | .slot => some p.slotCount.toInt
  | .string => some p.constants.size
  | .label => some p.labelCount.toInt
  | .int | .none => none

def validateInstr (p : Program) (index : Nat) (i : Instr) (marked : Array Bool) :
    Except Invalid (Array Bool) :=
  match i.op? with
  | none => .error (.unknownOp index i.code)
  | some op =>
    match p.limit? op.operand with
    | none => .ok marked
    | some limit =>
      if i.arg.toInt < 0 ∨ limit ≤ i.arg.toInt then
        .error (.operandRange index op.name i.arg.toInt)
      else if op = .label then
        if marked[i.arg.toInt.toNat]? = some true then
          .error (.markedTwice index i.arg.toInt)
        else .ok (marked.setIfInBounds i.arg.toInt.toNat true)
      else .ok marked

/-- Tests instructions in turn, keeping track of the labels that have been marked. -/
def validateFrom (p : Program) : Nat → List Instr → Array Bool → Except Invalid (Array Bool)
  | _, [], marked => .ok marked
  | index, i :: rest, marked => do
    let marked ← p.validateInstr index i marked
    p.validateFrom (index + 1) rest marked

/-- Tests a program: all operations are known, all operands are in range, and every label is marked
by exactly one instruction. -/
def validate (p : Program) : Except Invalid Unit := do
  if p.slotCount.toInt < 0 then throw (.negativeSlots p.slotCount.toInt)
  if p.labelCount.toInt < 0 then throw (.negativeLabels p.labelCount.toInt)
  if (p.instrs.size : Int) < p.labelCount.toInt then
    throw (.tooManyLabels p.labelCount.toInt p.instrs.size)
  let marked ← p.validateFrom 0 p.instrs.toList (Array.replicate p.labelCount.toInt.toNat false)
  match marked.toList.findIdx? (· == false) with
  | some label => throw (.neverMarked label)
  | none => return ()

end Program

end BlockLang

import BlockLang.Bytecode.Program
import BlockLang.Tree.Basic

/-! Code generation: from the resolved tree to a program. The code of an expression, of a statement
and of a body leaves exactly one value on the operand stack. Each instruction is emitted together
with the number of values that the stack holds in front of it. -/

namespace BlockLang

/-- An instruction and the depth of the operand stack in front of it. -/
structure Emitted where
  instr : Instr
  depth : Nat
  deriving DecidableEq, Repr, Inhabited

/-- The labels of a loop's end and start, and the depth of the stack where the loop was entered. -/
structure LoopFrame where
  leave : Nat
  again : Nat
  depth : Nat
  deriving DecidableEq, Repr, Inhabited

/-- A loop of the code, with the places of the labels of its start and end. -/
structure LoopSpan where
  frame : LoopFrame
  first : Nat
  last : Nat
  deriving DecidableEq, Repr, Inhabited

/-- The code so far: instructions, string constants, the number of labels in use, the depth of the
operand stack behind the last instruction, and the loops that have been finished. -/
structure Context where
  code : Array Emitted := #[]
  strings : Array String := #[]
  labels : Nat := 0
  depth : Nat := 0
  loops : Array LoopSpan := #[]
  deriving DecidableEq, Repr, Inhabited

/-- What no checked program leads to, and code that no table can hold. -/
inductive EmitError where
  | outsideLoop
  | unbalanced (depth : Nat)
  | tooLong (size : Nat)
  deriving DecidableEq, Repr, Inhabited

/-- How a failed generation is reported. -/
def EmitError.message : EmitError → String
  | outsideLoop => "bytecode: break or continue outside of a loop"
  | unbalanced depth => "bytecode: stack depth " ++ toString depth ++ " at end of program"
  | tooLong _ => "growslice: len out of range"

abbrev Emit := StateT Context (Except EmitError)

namespace Emit

def emit (op : Op) (arg : Int64) : Emit Unit :=
  modify fun c =>
    { c with
      code := c.code.push ⟨Instr.of op arg, c.depth⟩
      depth := c.depth + op.pushes - op.pops }

/-- Emits an instruction whose argument is a slot, a label or the number of a string. -/
def emitAt (op : Op) (index : Nat) : Emit Unit := emit op (Int64.ofNat index)

/-- Takes a label that is not in use. -/
def newLabel : Emit Nat := modifyGet fun c => (c.labels, { c with labels := c.labels + 1 })

/-- Sets the depth of the stack behind a point that is reached by a jump. -/
def setDepth (depth : Nat) : Emit Unit := modify fun c => { c with depth }

def depth : Emit Nat := do return (← get).depth

/-- The place of the next instruction. -/
def place : Emit Nat := do return (← get).code.size

/-- Notes a loop whose last label is the next instruction. -/
def closeLoop (frame : LoopFrame) (first : Nat) : Emit Unit :=
  modify fun c => { c with loops := c.loops.push ⟨frame, first, c.code.size⟩ }

/-- The number of a string constant, which is added if it is new. -/
def constant (s : String) : Emit Nat := modifyGet fun c =>
  match c.strings.idxOf? s with
  | some index => (index, c)
  | none => (c.strings.size, { c with strings := c.strings.push s })

def drop : Nat → Emit Unit
  | 0 => pure ()
  | n + 1 => do
    emit .pop 0
    drop n

/-- Leaves for a label of the innermost loop. The values above the loop's depth belong to
expressions that are never finished. Behind the jump the depth is as if the statement had left a
value. -/
def jumpOut (frame : LoopFrame) (label : Nat) : Emit Unit := do
  let here ← depth
  drop (here - frame.depth)
  emitAt .jump label
  setDepth (here + 1)

/-- The operation of an operator on operands of a type. -/
def binaryOp (op : BinaryOp) (left : Ty) : Op :=
  match op, left with
  | .eq, .string => .strEq
  | .neq, .string => .strNe
  | .add, .string => .append
  | .or, _ => .or
  | .and, _ => .and
  | .eq, _ => .eq
  | .neq, _ => .ne
  | .lt, _ => .lt
  | .lte, _ => .le
  | .gt, _ => .gt
  | .gte, _ => .ge
  | .add, _ => .add
  | .sub, _ => .sub
  | .mul, _ => .mul
  | .div, _ => .div
  | .rem, _ => .rem

/-- The operation of an operator on one operand. -/
def unaryOp : UnaryOp → Op
  | .negate => .neg
  | .not => .not
  | .stringify => .stringify

mutual

def expr (frame : Option LoopFrame) : Expr .resolved → Emit Unit
  | .int value _ => emit .pushInt value
  | .string value _ => do emitAt .pushString (← constant value)
  | .bool value _ => emit .pushBool (if value then 1 else 0)
  | .unit _ => emit .pushUnit 0
  | .var slot _ => emitAt .load slot
  | .assign slot value _ => do
    expr frame value
    emitAt .assign slot
  | .unary op operand _ => do
    expr frame operand
    emit (unaryOp op) 0
  | .binary op left right _ => do
    expr frame left
    expr frame right
    emit (binaryOp op left.tag) 0
  | .block stmts _ => body frame stmts
  | .choice cond stmts others _ => do
    let base ← depth
    let finish ← newLabel
    let next ← newLabel
    expr frame cond
    emitAt .jumpFalse next
    body frame stmts
    emitAt .jump finish
    emitAt .label next
    setDepth base
    branches frame base finish others
    emitAt .label finish
    setDepth (base + 1)
  | .loop cond stmts _ => do
    let start ← newLabel
    let finish ← newLabel
    let base ← depth
    let first ← place
    emitAt .label start
    expr frame cond
    emitAt .jumpFalse finish
    body (some ⟨finish, start, base⟩) stmts
    emit .pop 0
    emitAt .jump start
    closeLoop ⟨finish, start, base⟩ first
    emitAt .label finish
    setDepth base
    emit .pushUnit 0

/-- The code of the later branches of a choice. -/
def branches (frame : Option LoopFrame) (base finish : Nat) : Branches .resolved → Emit Unit
  | .done => emit .pushUnit 0
  | .otherwise stmts => body frame stmts
  | .orIf cond stmts others => do
    let next ← newLabel
    expr frame cond
    emitAt .jumpFalse next
    body frame stmts
    emitAt .jump finish
    emitAt .label next
    setDepth base
    branches frame base finish others

/-- The code of a body, whose value is that of its last statement. -/
def body (frame : Option LoopFrame) : List (Stmt .resolved) → Emit Unit
  | [] => emit .pushUnit 0
  | s :: rest => do
    stmt frame s
    if rest.isEmpty then pure ()
    else
      emit .pop 0
      body frame rest

def stmt (frame : Option LoopFrame) : Stmt .resolved → Emit Unit
  | .declare _ slot init _ => do
    expr frame init
    emitAt .declare slot
    emit .pushUnit 0
  | .write newline value _ _ => do
    expr frame value
    emit (if newline then .writeln else .write) 0
    emit .pushUnit 0
  | .leave _ =>
    match frame with
    | some f => jumpOut f f.leave
    | none => throw .outsideLoop
  | .again _ =>
    match frame with
    | some f => jumpOut f f.again
    | none => throw .outsideLoop
  | .expr value _ => expr frame value

end

/-- The code of a program: the value of every statement is dropped. -/
def program : List (Stmt .resolved) → Emit Unit
  | [] => pure ()
  | s :: rest => do
    stmt none s
    emit .pop 0
    program rest

end Emit

/-- A section of a program, which is missing if it would be empty. -/
def section? {α : Type} (xs : Array α) : Option (Array α) := if xs.isEmpty then none else some xs

/-- The compiled form of a resolved program with a number of slots. -/
def generate (program : Body .resolved) (slots : Nat) : Except EmitError Program := do
  let (_, c) ← (Emit.program program).run {}
  if c.depth ≠ 0 then throw (.unbalanced c.depth)
  if tableLimit < c.code.size then throw (.tooLong c.code.size)
  return {
    code := section? (c.code.map (·.instr))
    strings := section? c.strings
    labelCount := Int64.ofNat c.labels
    slotCount := Int64.ofNat slots }

end BlockLang

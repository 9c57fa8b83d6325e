import BlockLang.Text.Hex

/-! The instructions of the stack machine. An instruction is a byte that names its operation and a
64-bit argument. Not every byte names an operation; a program from outside may hold any. -/

namespace BlockLang

/-- The operations of the machine. -/
inductive Op where
  | pushInt
  | pushBool
  | pushUnit
  | pushString
  | pop
  | load
  | declare
  | assign
  | neg
  | not
  | stringify
  | add
  | sub
  | mul
  | div
  | rem
  | and
  | or
  | eq
  | ne
  | lt
  | le
  | gt
  | ge
  | strEq
  | strNe
  | append
  | write
  | writeln
  | label
  | jump
  | jumpFalse
  deriving DecidableEq, Repr, Inhabited

/-- What the argument of an instruction means. -/
inductive Operand where
  | none
  | int
  | slot
  | string
  | label
  deriving DecidableEq, Repr, Inhabited

/-- The word for a sort of operand, empty for no operand. -/
def Operand.name : Operand → String
  | none => ""
  | int => "int"
  | slot => "slot"
  | string => "string"
  | label => "label"

namespace Op

def code : Op → UInt8
  | pushInt => 0x00
  | pushBool => 0x01
  | pushUnit => 0x02
  | pushString => 0x03
  | pop => 0x10
  | load => 0x20
  | declare => 0x21
  | assign => 0x22
  | neg => 0x30
  | not => 0x31
  | stringify => 0x32
  | add => 0x33
  | sub => 0x34
  | mul => 0x35
  | div => 0x36
  | rem => 0x37
  | and => 0x38
  | or => 0x39
  | eq => 0x40
  | ne => 0x41
  | lt => 0x42
  | le => 0x43
  | gt => 0x44
  | ge => 0x45
  | strEq => 0x50
  | strNe => 0x51
  | append => 0x52
  | write => 0x60
  | writeln => 0x61
  | label => 0x70
  | jump => 0x71
  | jumpFalse => 0x72

def ofCode? (b : UInt8) : Option Op :=
  match b.toNat with
  | 0x00 => some pushInt
  | 0x01 => some pushBool
  | 0x02 => some pushUnit
  | 0x03 => some pushString
  | 0x10 => some pop
  | 0x20 => some load
  | 0x21 => some declare
  | 0x22 => some assign
  | 0x30 => some neg
  | 0x31 => some not
  | 0x32 => some stringify
  | 0x33 => some add
  | 0x34 => some sub
  | 0x35 => some mul
  | 0x36 => some div
  | 0x37 => some rem
  | 0x38 => some and
  | 0x39 => some or
  | 0x40 => some eq
  | 0x41 => some ne
  | 0x42 => some lt
  | 0x43 => some le
  | 0x44 => some gt
  | 0x45 => some ge
  | 0x50 => some strEq
  | 0x51 => some strNe
  | 0x52 => some append
  | 0x60 => some write
  | 0x61 => some writeln
  | 0x70 => some label
  | 0x71 => some jump
  | 0x72 => some jumpFalse
  | _ => none

@[simp] theorem ofCode?_code (op : Op) : ofCode? op.code = some op := by
  cases op <;> rfl

def name : Op → String
  | pushInt => "PUSH_INT"
  | pushBool => "PUSH_BOOL"
  | pushUnit => "PUSH_UNIT"
  | pushString => "PUSH_STRING"
  | pop => "POP"
  | load => "LOAD"
  | declare => "DECLARE"
  | assign => "ASSIGN"
  | neg => "NEG"
  | not => "NOT"
  | stringify => "STRINGIFY"
  | add => "ADD"
  | sub => "SUB"
  | mul => "MUL"
  | div => "DIV"
  | rem => "REM"
  | and => "AND"
  | or => "OR"
  | eq => "EQ"
  | ne => "NE"
  | lt => "LT"
  | le => "LE"
  | gt => "GT"
  | ge => "GE"
  | strEq => "STR_EQ"
  | strNe => "STR_NE"
  | append => "APPEND"
  | write => "WRITE"
  | writeln => "WRITELN"
  | label => "LABEL"
  | jump => "JUMP"
  | jumpFalse => "JUMP_FALSE"

/-- How many values an operation takes from the stack. -/
def pops : Op → Nat
  | pushInt | pushBool | pushUnit | pushString | load | label | jump => 0
  | pop | declare | assign | neg | not | stringify | write | writeln | jumpFalse => 1
  | add | sub | mul | div | rem | and | or | eq | ne | lt | le | gt | ge | strEq | strNe
  | append => 2

/-- How many values an operation leaves on the stack. -/
def pushes : Op → Nat
  | pop | declare | write | writeln | label | jump | jumpFalse => 0
  | _ => 1

/-- What the argument of an operation means. -/
def operand : Op → Operand
  | pushInt | pushBool => .int
  | pushString => .string
  | load | declare | assign => .slot
  | label | jump | jumpFalse => .label
  | _ => .none

/-- By how much an operation changes the number of values on the stack. -/
def effect (op : Op) : Int := (op.pushes : Int) - op.pops

/-- Whether an operation may go on elsewhere. -/
def isJump : Op → Bool
  | jump | jumpFalse => true
  | _ => false

end Op

/-- An instruction. -/
structure Instr where
  code : UInt8
  arg : Int64 := 0
  deriving DecidableEq, Repr, Inhabited

namespace Instr

def of (op : Op) (arg : Int64) : Instr := ⟨op.code, arg⟩

def op? (i : Instr) : Option Op := Op.ofCode? i.code

@[simp] theorem op?_of (op : Op) (arg : Int64) : (of op arg).op? = some op := Op.ofCode?_code op

/-- What the argument of an instruction means; that of an unknown operation means nothing. -/
def operand (i : Instr) : Operand :=
  match i.op? with
  | some op => op.operand
  | none => .none

def name (i : Instr) : String :=
  match i.op? with
  | some op => op.name
  | none => "UNKNOWN_" ++ (Text.hexFixed 2 i.code.toNat).toUpper

/-- An instruction with its argument, if that means anything. -/
def text (i : Instr) : String :=
  if i.operand = .none then i.name else i.name ++ " " ++ toString i.arg.toInt

end Instr

end BlockLang

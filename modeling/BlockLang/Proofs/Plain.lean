import BlockLang.Machine.Run

/-! The plain machine. It runs the same code, but the strings that are made at run time lie on its
stack and in its slots themselves: there is no heap, and nothing is counted. A step that the
machine cannot take has no result. What the counted machine does is compared with the plain one
once, instruction by instruction; everything that does not concern the heap is then shown of the
plain machine. -/

namespace BlockLang.Plain

/-- A value; a string is a constant of the program or lies in the value. -/
inductive Value where
  | unit
  | int (n : Int64)
  | bool (b : Bool)
  | const (index : Int64)
  | text (s : String)
  deriving DecidableEq

namespace Value

def string? (p : Program) : Value → Option String
  | const index => p.constant? index
  | text s => some s
  | _ => none

/-- What printing a value prints. -/
def shown? (p : Program) : Value → Option String
  | unit => some "()"
  | int n => some (toString n.toInt)
  | bool b => some (toString b)
  | v => v.string? p

def stringified : Value → Value
  | unit => text ""
  | int n => text (toString n.toInt)
  | bool b => text (toString b)
  | v => v

/-- Whether two values that are no strings are equal. -/
def equal? : Value → Value → Option Bool
  | unit, unit => some true
  | int a, int b => some (a == b)
  | bool a, bool b => some (a == b)
  | _, _ => none

end Value

/-- The state of a run; the head of the stack is its top. -/
structure State where
  ip : Nat
  stack : List Value
  slots : Array Value
  output : String
  deriving DecidableEq

def State.withStack (s : State) (stack : List Value) : State := { s with stack }

def index? (arg : Int64) : Option Nat := if arg.toInt < 0 then none else some arg.toInt.toNat

def target? (m : Machine) (label : Int64) : Option Nat := do
  let index ← index? label
  (m.labels[index]?).join

section Operands

variable {α : Type} (stack : List Value)

/-- Goes on with the value on top of the stack. -/
def onTop (k : Value → List Value → Option α) : Option α :=
  match stack with
  | v :: rest => k v rest
  | [] => none

/-- Goes on with the two values on top of the stack, the deeper one first. -/
def onTwo (k : Value → Value → List Value → Option α) : Option α :=
  onTop stack fun b rest => onTop rest fun a rest => k a b rest

def onInt (k : Int64 → List Value → Option α) : Option α :=
  match stack with
  | .int a :: rest => k a rest
  | _ => none

def onBool (k : Bool → List Value → Option α) : Option α :=
  match stack with
  | .bool a :: rest => k a rest
  | _ => none

/-- Goes on with two integers, the deeper one first. -/
def onInts (k : Int64 → Int64 → List Value → Option α) : Option α :=
  onInt stack fun b rest => onInt rest fun a rest => k a b rest

/-- Goes on with two truth values, the deeper one first. -/
def onBools (k : Bool → Bool → List Value → Option α) : Option α :=
  onBool stack fun b rest => onBool rest fun a rest => k a b rest

/-- Goes on with the contents of two strings, the deeper one first. -/
def onTexts (p : Program) (k : String → String → List Value → Option α) : Option α :=
  onTwo stack fun a b rest => do k (← a.string? p) (← b.string? p) rest

end Operands

/-- What an instruction leads to: a run-time error, if it raised one, and the next state. -/
abbrev Effect := Option (Option RuntimeError × State)

def next (s : State) : Effect := some (none, s)

/-- The run goes on with a stack. -/
def nextWith (s : State) (stack : List Value) : Effect := next (s.withStack stack)

/-- The run goes on behind a label. -/
def jump (m : Machine) (label : Int64) (s : State) : Effect := do
  next { s with ip := ← target? m label }

/-- A division of two integers. -/
def divide (s : State) (f : Int64 → Int64 → Int64) (cause : RuntimeCause) : Effect :=
  onInts s.stack fun a b rest =>
    if b = 0 then some (some ⟨s.ip, cause⟩, s.withStack rest)
    else nextWith s (.int (f a b) :: rest)

/-- Puts a value into the slot that an argument names, and goes on with a stack. -/
def store (s : State) (arg : Int64) (v : Value) (stack : List Value) : Effect := do
  let index ← index? arg
  if index < s.slots.size then
    next { s with stack, slots := s.slots.setIfInBounds index v }
  else none

/-- Prints the value on top of the stack. -/
def write (p : Program) (s : State) (behind : String) : Effect :=
  onTop s.stack fun v rest => do
    let text ← v.shown? p
    next { s with stack := rest, output := s.output ++ (text ++ behind) }

def perform (m : Machine) (s : State) (op : Op) (arg : Int64) : Effect :=
  match op with
  | .pushInt => nextWith s (.int arg :: s.stack)
  | .pushBool => nextWith s (.bool (arg != 0) :: s.stack)
  | .pushUnit => nextWith s (.unit :: s.stack)
  | .pushString => nextWith s (.const arg :: s.stack)
  | .pop => onTop s.stack fun _ rest => nextWith s rest
  | .load => do
    let v ← s.slots[← index? arg]?
    nextWith s (v :: s.stack)
  | .declare => onTop s.stack fun v rest => store s arg v rest
  | .assign => onTop s.stack fun v _ => store s arg v s.stack
  | .neg => onInt s.stack fun a rest => nextWith s (.int (-a) :: rest)
  | .not => onBool s.stack fun a rest => nextWith s (.bool (!a) :: rest)
  | .stringify => onTop s.stack fun v rest => nextWith s (v.stringified :: rest)
  | .add => onInts s.stack fun a b rest => nextWith s (.int (a + b) :: rest)
  | .sub => onInts s.stack fun a b rest => nextWith s (.int (a - b) :: rest)
  | .mul => onInts s.stack fun a b rest => nextWith s (.int (a * b) :: rest)
  | .div => divide s (· / ·) .divisionByZero
  | .rem => divide s (· % ·) .remainderByZero
  | .and => onBools s.stack fun a b rest => nextWith s (.bool (a && b) :: rest)
  | .or => onBools s.stack fun a b rest => nextWith s (.bool (a || b) :: rest)
  | .eq => onTwo s.stack fun a b rest => do
    nextWith s (.bool ((← a.equal? b) == true) :: rest)
  | .ne => onTwo s.stack fun a b rest => do
    nextWith s (.bool ((← a.equal? b) == false) :: rest)
  | .lt => onInts s.stack fun a b rest => nextWith s (.bool (decide (a < b)) :: rest)
  | .le => onInts s.stack fun a b rest => nextWith s (.bool (decide (a ≤ b)) :: rest)
  | .gt => onInts s.stack fun a b rest => nextWith s (.bool (decide (b < a)) :: rest)
  | .ge => onInts s.stack fun a b rest => nextWith s (.bool (decide (b ≤ a)) :: rest)
  | .strEq => onTexts s.stack m.program fun a b rest => nextWith s (.bool (a == b) :: rest)
  | .strNe => onTexts s.stack m.program fun a b rest => nextWith s (.bool (a != b) :: rest)
  | .append => onTexts s.stack m.program fun a b rest => nextWith s (.text (a ++ b) :: rest)
  | .write => write m.program s ""
  | .writeln => write m.program s "\n"
  | .label => next s
  | .jump => jump m arg s
  | .jumpFalse => onBool s.stack fun a rest =>
    if a then nextWith s rest else jump m arg (s.withStack rest)

def instr (m : Machine) (i : Instr) (s : State) : Effect := do
  perform m s (← i.op?) i.arg

/-- What a step leads to. -/
inductive StepResult where
  | running (s : State)
  | ended (error : Option RuntimeError) (s : State)
  deriving DecidableEq

/-- Performs the next instruction. -/
def step (m : Machine) (s : State) : Option StepResult :=
  match m.program.instrs[s.ip]? with
  | none => some (.ended none s)
  | some i =>
    match instr m i s with
    | none => none
    | some (some e, s) => some (.ended (some e) s)
    | some (none, s) => some (.running { s with ip := s.ip + 1 })

end BlockLang.Plain

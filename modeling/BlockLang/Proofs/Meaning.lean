import BlockLang.Machine.Fault
import BlockLang.Tree.Basic

/-! What trees mean. A tree is evaluated directly, by recursion on its nodes: operands from left to
right, both operands of `and` and `or` always; integers are those of mathematics, cut to 64 bits after
every operation; a variable is the latest one of its name that is still visible, and the variables of
a block end with it. A `break` or `continue` ends everything up to the innermost loop in whose body it
stands; in the condition of a loop it is the loop around that one.

Only loops may go on for ever. An evaluation is given a number of rounds that no loop may exceed, and
a program ends with a result if some number of rounds suffices.

How variables are kept is a parameter, so that trees with names and trees with slots have one
meaning. -/

namespace BlockLang

/-- The values of expressions. -/
inductive Datum where
  | unit
  | int (n : Int64)
  | bool (b : Bool)
  | string (s : String)
  deriving DecidableEq

namespace Datum

def type : Datum → Ty
  | unit => .unit
  | int _ => .int
  | bool _ => .bool
  | string _ => .string

/-- What printing a value prints. -/
def shown : Datum → String
  | unit => "()"
  | int n => toString n.toInt
  | bool b => toString b
  | string s => s

def stringified : Datum → String
  | unit => ""
  | d => d.shown

end Datum

/-- What an operator makes of an operand, if it applies to it. -/
def UnaryOp.apply : UnaryOp → Datum → Option Datum
  | negate, .int n => some (.int (.ofInt (-n.toInt)))
  | not, .bool b => some (.bool (!b))
  | stringify, d => some (.string d.stringified)
  | _, _ => none

namespace BinaryOp

/-- What an operator makes of two integers, if it applies to integers. -/
def onInts (a b : Int) : BinaryOp → Option (Except RuntimeCause Datum)
  | eq => some (.ok (.bool (a = b)))
  | neq => some (.ok (.bool (a ≠ b)))
  | lt => some (.ok (.bool (a < b)))
  | lte => some (.ok (.bool (a ≤ b)))
  | gt => some (.ok (.bool (a > b)))
  | gte => some (.ok (.bool (a ≥ b)))
  | add => some (.ok (.int (.ofInt (a + b))))
  | sub => some (.ok (.int (.ofInt (a - b))))
  | mul => some (.ok (.int (.ofInt (a * b))))
  | div => some (if b = 0 then .error .divisionByZero else .ok (.int (.ofInt (a.tdiv b))))
  | rem => some (if b = 0 then .error .remainderByZero else .ok (.int (.ofInt (a.tmod b))))
  | or | and => none

/-- What an operator makes of two truth values, if it applies to them. -/
def onBools (a b : Bool) : BinaryOp → Option (Except RuntimeCause Datum)
  | or => some (.ok (.bool (a || b)))
  | and => some (.ok (.bool (a && b)))
  | eq => some (.ok (.bool (a = b)))
  | neq => some (.ok (.bool (a ≠ b)))
  | _ => none

/-- What an operator makes of two strings, if it applies to strings. -/
def onStrings (a b : String) : BinaryOp → Option (Except RuntimeCause Datum)
  | eq => some (.ok (.bool (a = b)))
  | neq => some (.ok (.bool (a ≠ b)))
  | add => some (.ok (.string (a ++ b)))
  | _ => none

/-- What an operator makes of two units, if it applies to them. -/
def onUnits : BinaryOp → Option (Except RuntimeCause Datum)
  | eq => some (.ok (.bool true))
  | neq => some (.ok (.bool false))
  | _ => none

/-- What an operator makes of two operands, the first of which has been given a type. -/
def apply (op : BinaryOp) (left : Ty) (a b : Datum) : Option (Except RuntimeCause Datum) :=
  match left, a, b with
  | .int, .int a, .int b => op.onInts a.toInt b.toInt
  | .bool, .bool a, .bool b => op.onBools a b
  | .string, .string a, .string b => op.onStrings a b
  | .unit, .unit, .unit => op.onUnits
  | _, _, _ => none

end BinaryOp

/-- A way to keep variables that are known by an `N`. -/
structure Storage (N : Type) where
  Vars : Type
  /-- The value of a variable. -/
  get? : Vars → N → Option Datum
  /-- Gives a variable another value. -/
  set? : Vars → N → Datum → Option Vars
  /-- Declares a variable. -/
  declare? : Vars → N → Datum → Option Vars
  /-- What is left of the variables behind a block, from those in front of it. -/
  close : Vars → Vars → Vars

namespace Storage

/-- Gives the latest variable of a name another value. -/
def update? : List (String × Datum) → String → Datum → Option (List (String × Datum))
  | [], _, _ => none
  | (other, old) :: vars, name, d =>
    if name == other then some ((other, d) :: vars) else ((other, old) :: ·) <$> update? vars name d

/-- Variables by name, the latest first. -/
abbrev named : Storage String where
  Vars := List (String × Datum)
  get? vars name := vars.lookup name
  set? := update?
  declare? vars name d := some ((name, d) :: vars)
  close outer inner := inner.drop (inner.length - outer.length)

def put? (vars : Array Datum) (slot : Nat) (d : Datum) : Option (Array Datum) :=
  if slot < vars.size then some (vars.setIfInBounds slot d) else none

/-- Variables by slot; a slot outlives its variable. -/
abbrev slotted : Storage Nat where
  Vars := Array Datum
  get? vars slot := vars[slot]?
  set? := put?
  declare? := put?
  close _ inner := inner

end Storage

/-- Why an evaluation stops before it has a value. -/
inductive Stop where
  | leave
  | again
  | failed (cause : RuntimeCause)
  /-- The tree makes no sense. -/
  | stuck
  /-- A loop has used up its rounds. -/
  | outOfRounds
  deriving DecidableEq

/-- The variables and the output so far. -/
structure World (V : Type) where
  vars : V
  output : String

/-- An evaluation, which leaves a world behind also when it stops. -/
abbrev Eval (V : Type) := ExceptT Stop (StateM (World V))

namespace Eval

variable {V : Type} {α : Type}

def stop (why : Stop) : Eval V α := fun w => (.error why, w)

/-- What is there, or else the tree makes no sense. -/
def need : Option α → Eval V α
  | some a => pure a
  | none => stop .stuck

def change (f : V → Option V) : Eval V Unit := fun w =>
  match f w.vars with
  | some vars => (.ok (), { w with vars })
  | none => (.error .stuck, w)

def print (text : String) : Eval V Unit := fun w => (.ok (), { w with output := w.output ++ text })

/-- The truth value of a condition. -/
def truth : Datum → Eval V Bool
  | .bool b => pure b
  | _ => stop .stuck

def result : Option (Except RuntimeCause Datum) → Eval V Datum
  | some (.ok d) => pure d
  | some (.error cause) => stop (.failed cause)
  | none => stop .stuck

/-- Evaluates a block, whose variables end with it however it ends. -/
def inBlock {N : Type} (S : Storage N) (x : Eval S.Vars α) : Eval S.Vars α := fun w =>
  let (r, after) := x w
  (r, { after with vars := S.close w.vars after.vars })

/-- Evaluates the body of a loop, and says whether the loop goes on. -/
def attempt (body : Eval V Datum) : Eval V Bool := fun w =>
  match body w with
  | (.ok _, w) => (.ok true, w)
  | (.error .again, w) => (.ok true, w)
  | (.error .leave, w) => (.ok false, w)
  | (.error why, w) => (.error why, w)

/-- Repeats a round for as long as it says so, but no more than a number of times. -/
def iterate (round : Eval V Bool) : Nat → Eval V Datum
  | 0 => stop .outOfRounds
  | n + 1 => do
    if ← round then iterate round n
    else return .unit

section Trees

variable {N : Type} (S : Storage N) (rounds : Nat)

mutual

def expr : Expr ⟨N, Ty, Ty⟩ → Eval S.Vars Datum
  | .int value _ => return .int value
  | .string value _ => return .string value
  | .bool value _ => return .bool value
  | .unit _ => return .unit
  | .var name _ => do need (S.get? (← get).vars name)
  | .assign name value _ => do
    let d ← expr value
    change (S.set? · name d)
    return d
  | .unary op operand _ => do need (op.apply (← expr operand))
  | .binary op left right _ => do
    let a ← expr left
    let b ← expr right
    result (op.apply left.tag a b)
  | .block body _ => inBlock S (stmts body)
  | .choice cond body others _ => do
    if ← truth (← expr cond) then inBlock S (stmts body)
    else branches others
  | .loop cond body _ =>
    iterate (do
      if ← truth (← expr cond) then attempt (inBlock S (stmts body))
      else return false) rounds

/-- Evaluates the later branches of a choice. -/
def branches : Branches ⟨N, Ty, Ty⟩ → Eval S.Vars Datum
  | .done => return .unit
  | .otherwise body => inBlock S (stmts body)
  | .orIf cond body others => do
    if ← truth (← expr cond) then inBlock S (stmts body)
    else branches others

/-- Evaluates the statements of a body, whose value is that of the last one. -/
def stmts : List (Stmt ⟨N, Ty, Ty⟩) → Eval S.Vars Datum
  | [] => return .unit
  | s :: rest => do
    let d ← stmt s
    if rest.isEmpty then return d
    else stmts rest

/-- Evaluates a statement; a variable is declared when it has its first value. -/
def stmt : Stmt ⟨N, Ty, Ty⟩ → Eval S.Vars Datum
  | .declare _ name init _ => do
    let d ← expr init
    change (S.declare? · name d)
    return .unit
  | .write newline value _ _ => do
    let d ← expr value
    print (d.shown ++ if newline then "\n" else "")
    return .unit
  | .leave _ => stop .leave
  | .again _ => stop .again
  | .expr value _ => expr value

end

end Trees

end Eval

/-- How a program ends, with the error that it fails with and the output that it has printed, if its
loops need no more than a number of rounds. -/
def evaluate (rounds : Nat) (program : Body .typed) : Option (Option RuntimeCause × String) :=
  match Eval.stmts .named rounds program { vars := [], output := "" } with
  | (.ok _, w) => some (none, w.output)
  | (.error (.failed cause), w) => some (some cause, w.output)
  | _ => none

end BlockLang

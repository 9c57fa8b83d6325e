import BlockLang.Tree.Basic

/-! Resolving: variables get slots in place of names. Every declaration takes a slot of its own, in
the order in which the initial values end, and slots are never used again, so the number of slots is
the number of declarations. -/

namespace BlockLang

/-- The slots of the visible variables, the latest first, and the next free slot. -/
structure Slots where
  names : List (String × Nat) := []
  next : Nat := 0
  deriving DecidableEq, Repr, Inhabited

/-- A name without a slot. -/
structure Unresolved where
  name : String
  deriving DecidableEq, Repr, Inhabited

/-- How a name without a slot is reported. -/
def Unresolved.message (u : Unresolved) : String := "renamer: '" ++ u.name ++ "' has no slot"

/-- A pass that hands out slots and may meet a name without one. -/
abbrev Resolve := StateT Slots (Except Unresolved)

namespace Resolve

def lookup (name : String) : Resolve Nat := fun s =>
  match s.names.lookup name with
  | some slot => .ok (slot, s)
  | none => .error ⟨name⟩

/-- Gives a variable the next free slot. -/
def declare (name : String) : Resolve Nat := fun s =>
  .ok (s.next, { names := (name, s.next) :: s.names, next := s.next + 1 })

/-- Resolves a block, whose variables end with it. -/
def inBlock {α : Type} (pass : Resolve α) : Resolve α := do
  let outer ← get
  let result ← pass
  modify fun s => { s with names := outer.names }
  return result

mutual

def expr : Expr .typed → Resolve (Expr .resolved)
  | .int value t => return .int value t
  | .string value t => return .string value t
  | .bool value t => return .bool value t
  | .unit t => return .unit t
  | .var name t => return .var (← lookup name) t
  | .assign name value t => do
    let value ← expr value
    return .assign (← lookup name) value t
  | .unary op operand t => return .unary op (← expr operand) t
  | .binary op left right t => do
    let left ← expr left
    return .binary op left (← expr right) t
  | .block body t => return .block (← inBlock (stmts body)) t
  | .choice cond body others t => do
    let cond ← expr cond
    let body ← inBlock (stmts body)
    return .choice cond body (← branches others) t
  | .loop cond body t => do
    let cond ← expr cond
    return .loop cond (← inBlock (stmts body)) t

/-- Resolves the later branches of a choice. -/
def branches : Branches .typed → Resolve (Branches .resolved)
  | .done => return .done
  | .otherwise body => return .otherwise (← inBlock (stmts body))
  | .orIf cond body others => do
    let cond ← expr cond
    let body ← inBlock (stmts body)
    return .orIf cond body (← branches others)

def stmts : List (Stmt .typed) → Resolve (Body .resolved)
  | [] => return []
  | s :: rest => do
    let s ← stmt s
    return s :: (← stmts rest)

/-- Resolves a statement; an initial value does not see the variable that it initialises. -/
def stmt : Stmt .typed → Resolve (Stmt .resolved)
  | .declare type name init m => do
    let init ← expr init
    return .declare type (← declare name) init m
  | .write newline value shown m => return .write newline (← expr value) shown m
  | .leave m => return .leave m
  | .again m => return .again m
  | .expr value m => return .expr (← expr value) m

end

end Resolve

/-- The program with slots in place of names, and the number of slots. -/
def resolve (program : Body .typed) : Except Unresolved (Body .resolved × Nat) :=
  ((Resolve.stmts program).run {}).map fun (body, slots) => (body, slots.next)

end BlockLang

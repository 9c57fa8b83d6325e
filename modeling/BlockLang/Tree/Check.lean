import BlockLang.Diagnostic
import BlockLang.Tree.Basic

/-! Type checking: from the parsed tree to the typed one. A block sees the variables of the blocks
around it and may declare their names again, but no name twice; what it declares ends with it. The
first violation ends the check, and every violation and warning is placed at the statement that is
being checked.

The state of a checker outlives a program, so that the statements of a later program see the
variables of an earlier one. -/

namespace BlockLang

/-- Why a program is not well typed. -/
inductive TypeCause where
  | alreadyDeclared (name : String)
  | badInit (declared : Ty) (name : String) (found : Ty)
  | notDeclared (name : String)
  | badAssign (found declared : Ty) (name : String)
  | badNegation (found : Ty)
  | badNot (found : Ty)
  | wantsBools (op : BinaryOp) (left right : Ty)
  | wantsInts (op : BinaryOp) (left right : Ty)
  | incomparable (left right : Ty) (op : BinaryOp)
  | cannotAdd (left right : Ty)
  | badCondition (construct : String) (found : Ty)
  | badBranch (construct : String) (found first : Ty)
  | missingElse (found : Ty)
  | outsideLoop (construct : String)
  | unreachable
  deriving DecidableEq, Repr, Inhabited

def TypeCause.message : TypeCause → String
  | alreadyDeclared name => "variable '" ++ name ++ "' is already declared in this scope"
  | badInit declared name found =>
    "cannot initialize " ++ declared.name ++ " variable '" ++ name ++ "' with a value of type "
      ++ found.name
  | notDeclared name => "variable '" ++ name ++ "' is not declared"
  | badAssign found declared name =>
    "cannot assign a value of type " ++ found.name ++ " to " ++ declared.name ++ " variable '"
      ++ name ++ "'"
  | badNegation found => "operand of '-' must be int, found " ++ found.name
  | badNot found => "operand of 'not' must be bool, found " ++ found.name
  | wantsBools op left right =>
    "operands of '" ++ op.symbol ++ "' must be bool, found " ++ left.name ++ " and " ++ right.name
  | wantsInts op left right =>
    "operands of '" ++ op.symbol ++ "' must be int, found " ++ left.name ++ " and " ++ right.name
  | incomparable left right op =>
    "cannot compare " ++ left.name ++ " with " ++ right.name ++ " using '" ++ op.symbol ++ "'"
  | cannotAdd left right => "cannot add " ++ left.name ++ " and " ++ right.name
  | badCondition construct found =>
    "'" ++ construct ++ "' condition must be bool, found " ++ found.name
  | badBranch construct found first =>
    "'" ++ construct ++ "' branch has type " ++ found.name ++ ", but the 'if' branch has type "
      ++ first.name
  | missingElse found => "'if' without 'else' must have type unit, found " ++ found.name
  | outsideLoop construct => "'" ++ construct ++ "' outside of a loop"
  | unreachable => "unreachable statement"

/-- A type error and the statement in which it was found. -/
structure TypeError where
  cause : TypeCause
  token : Token
  deriving DecidableEq, Repr, Inhabited

def TypeError.toDiagnostic (e : TypeError) : Diagnostic := ⟨.typing, e.token, e.cause.message⟩

/-- The variables that a block sees, the latest first, and the names that it has declared
itself. -/
structure Scope where
  vars : List (String × Ty) := []
  declared : List String := []
  deriving DecidableEq, Repr, Inhabited

namespace Scope

/-- The scope of a block inside this one. -/
def child (s : Scope) : Scope := { vars := s.vars }

/-- The type of a visible variable. -/
def type? (s : Scope) (name : String) : Option Ty := s.vars.lookup name

def declare (s : Scope) (name : String) (type : Ty) : Scope :=
  { vars := (name, type) :: s.vars, declared := name :: s.declared }

end Scope

/-- The state of a checker: the current scope, whether a loop body is being checked, the statement
that is being checked, and the warnings so far. -/
structure Checker where
  scope : Scope := {}
  inLoop : Bool := false
  stmt : Token := {}
  notices : List Notice := []
  deriving DecidableEq, Repr, Inhabited

/-- A check that may fail; the state survives a failure. -/
abbrev Check := ExceptT TypeError (StateM Checker)

namespace Check

def fail {α : Type} (cause : TypeCause) : Check α := fun c => (.error ⟨cause, c.stmt⟩, c)

/-- Records a warning at the current statement. -/
def warn (concern : Concern) : Check Unit := fun c =>
  (.ok (), { c with notices := c.notices ++ [⟨concern, c.stmt⟩] })

/-- Runs a check in a changed state and mends the state afterwards, also after a failure. -/
def bracket {α : Type} (enter : Checker → Checker) (leave : Checker → Checker → Checker)
    (check : Check α) : Check α := fun c =>
  let (result, after) := check (enter c)
  (result, leave c after)

/-- Runs a check in the scope of a block. -/
def inBlock {α : Type} : Check α → Check α :=
  bracket (fun c => { c with scope := c.scope.child }) fun before after =>
    { after with scope := before.scope }

def inLoop {α : Type} : Check α → Check α :=
  bracket (fun c => { c with inLoop := true }) fun before after =>
    { after with inLoop := before.inLoop }

def atStmt {α : Type} (token : Token) : Check α → Check α :=
  bracket (fun c => { c with stmt := token }) fun before after => { after with stmt := before.stmt }

def lookup (name : String) : Check Ty := fun c =>
  match c.scope.type? name with
  | some type => (.ok type, c)
  | none => (.error ⟨.notDeclared name, c.stmt⟩, c)

/-- Fails unless a condition holds. -/
def require (holds : Bool) (cause : TypeCause) : Check Unit :=
  if holds then pure () else fail cause

/-- The type of an operation on two operands. -/
def binaryType (op : BinaryOp) (left right : Ty) : Except TypeCause Ty :=
  match op with
  | .or | .and =>
    if left = .bool ∧ right = .bool then .ok .bool else .error (.wantsBools op left right)
  | .eq | .neq => if left = right then .ok .bool else .error (.incomparable left right op)
  | .lt | .lte | .gt | .gte =>
    if left = .int ∧ right = .int then .ok .bool else .error (.wantsInts op left right)
  | .add =>
    if left = right ∧ (left = .int ∨ left = .string) then .ok left
    else .error (.cannotAdd left right)
  | .sub | .mul | .div | .rem =>
    if left = .int ∧ right = .int then .ok .int else .error (.wantsInts op left right)

def unaryType (op : UnaryOp) (operand : Ty) : Except TypeCause Ty :=
  match op with
  | .negate => if operand = .int then .ok .int else .error (.badNegation operand)
  | .not => if operand = .bool then .ok .bool else .error (.badNot operand)
  | .stringify => .ok .string

/-- Goes on with a type, or fails with its cause. -/
def lift {α : Type} : Except TypeCause α → Check α
  | .ok a => pure a
  | .error cause => fail cause

/-- Whether an expression is the variable `name` and nothing else. -/
def isVar (name : String) : Expr .parsed → Bool
  | .var other _ => other == name
  | _ => false

/-- Settles the type of a condition, with a warning if it is a literal. -/
def condition (construct : String) (cond : Expr .parsed) (type : Ty) : Check Unit := do
  require (type = .bool) (.badCondition construct type)
  match cond with
  | .bool value _ => warn (.constantCondition construct value)
  | _ => pure ()

/-- Whether a statement hands control to a loop. -/
def endsFlow {P : Phase} : Stmt P → Bool
  | .leave _ | .again _ => true
  | _ => false

/-- Fails if a body goes on behind a statement that hands control to a loop. -/
def followed (s : Stmt .parsed) : Body .parsed → Check Unit
  | [] => pure ()
  | next :: _ =>
    if endsFlow s then fun c => (.error ⟨.unreachable, next.mark⟩, { c with stmt := next.mark })
    else pure ()

/-- The type of a body: that of its last statement. -/
def bodyType (body : Body .typed) : Ty :=
  match body.getLast? with
  | some s => s.mark
  | none => .unit

mutual

def expr : Expr .parsed → Check (Expr .typed)
  | .int value _ => return .int value .int
  | .string value _ => return .string value .string
  | .bool value _ => return .bool value .bool
  | .unit _ => return .unit .unit
  | .var name _ => return .var name (← lookup name)
  | .assign name value _ => do
    let type ← lookup name
    let checked ← expr value
    require (checked.tag = type) (.badAssign checked.tag type name)
    if isVar name value then warn (.selfAssignment name)
    return .assign name checked type
  | .unary op operand _ => do
    let checked ← expr operand
    return .unary op checked (← lift (unaryType op checked.tag))
  | .binary op left right _ => do
    let left ← expr left
    let right ← expr right
    return .binary op left right (← lift (binaryType op left.tag right.tag))
  | .block body _ => do
    let body ← inBlock (stmts body)
    return .block body (bodyType body)
  | .choice cond body others _ => do
    let checked ← expr cond
    condition "if" cond checked.tag
    let body ← inBlock (stmts body)
    let others ← branches (bodyType body) others
    return .choice checked body others (bodyType body)
  | .loop cond body _ => do
    let checked ← expr cond
    condition "while" cond checked.tag
    let body ← inLoop (inBlock (stmts body))
    return .loop checked body .unit

/-- Checks what follows the first body of a choice, whose type is `first`. -/
def branches (first : Ty) : Branches .parsed → Check (Branches .typed)
  | .done => do
    require (first = .unit) (.missingElse first)
    return .done
  | .otherwise body => do
    let body ← inBlock (stmts body)
    require (bodyType body = first) (.badBranch "else" (bodyType body) first)
    return .otherwise body
  | .orIf cond body others => do
    let checked ← expr cond
    condition "elif" cond checked.tag
    let body ← inBlock (stmts body)
    require (bodyType body = first) (.badBranch "elif" (bodyType body) first)
    return .orIf checked body (← branches first others)

def stmts : List (Stmt .parsed) → Check (Body .typed)
  | [] => return []
  | s :: rest => do
    let checked ← atStmt s.mark (stmt s)
    followed s rest
    return checked :: (← stmts rest)

def stmt : Stmt .parsed → Check (Stmt .typed)
  | .declare type name init _ => do
    let c ← get
    require (!c.scope.declared.contains name) (.alreadyDeclared name)
    let init ← expr init
    require (init.tag = type) (.badInit type name init.tag)
    let c ← get
    if (c.scope.type? name).isSome then warn (.shadows name)
    modify fun c => { c with scope := c.scope.declare name type }
    return .declare type name init .unit
  | .write newline value _ _ => do
    let value ← expr value
    return .write newline value value.tag .unit
  | .leave _ => do
    require (← get).inLoop (.outsideLoop "break")
    return .leave .unit
  | .again _ => do
    require (← get).inLoop (.outsideLoop "continue")
    return .again .unit
  | .expr value _ => do
    let value ← expr value
    return .expr value value.tag

end

end Check

/-- Checks a program, going on from the state of earlier checks. -/
def Checker.check (c : Checker) (program : Body .parsed) :
    Except TypeError (Body .typed) × Checker :=
  (Check.stmts program).run c

end BlockLang

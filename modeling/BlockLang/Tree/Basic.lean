import BlockLang.Token.Basic

/-! The syntax tree. One family of node types serves every stage of a compilation; what a node
carries besides its children is fixed by a `Phase`: the identity of variables, the tag of
expressions and the mark of statements. Parsing yields names, no tags, and marks that are tokens;
checking turns tags and marks into types; resolving turns names into slots. -/

namespace BlockLang

/-- The types of values. -/
inductive Ty where
  | int
  | string
  | bool
  | unit
  deriving DecidableEq, Repr, Inhabited

def Ty.name : Ty → String
  | int => "int"
  | string => "string"
  | bool => "bool"
  | unit => "unit"

/-- The operators with two operands. -/
inductive BinaryOp where
  | or
  | and
  | eq
  | neq
  | lt
  | lte
  | gt
  | gte
  | add
  | sub
  | mul
  | div
  | rem
  deriving DecidableEq, Repr, Inhabited

namespace BinaryOp

def symbol : BinaryOp → String
  | or => "or"
  | and => "and"
  | eq => "=="
  | neq => "!="
  | lt => "<"
  | lte => "<="
  | gt => ">"
  | gte => ">="
  | add => "+"
  | sub => "-"
  | mul => "*"
  | div => "/"
  | rem => "%"

/-- How tightly an operator binds, from 0, the loosest, to `tightest`. -/
def level : BinaryOp → Nat
  | or => 0
  | and => 1
  | eq | neq | lt | lte | gt | gte => 2
  | add | sub => 3
  | mul | div | rem => 4

/-- The level of the operators that bind most tightly. -/
def tightest : Nat := 4

end BinaryOp

/-- The operators with one operand. -/
inductive UnaryOp where
  | negate
  | not
  | stringify
  deriving DecidableEq, Repr, Inhabited

def UnaryOp.symbol : UnaryOp → String
  | negate => "-"
  | not => "not"
  | stringify => "$"

/-- What the nodes of a tree carry: the identity of a variable, the tag of an expression, and the
mark of a statement. -/
structure Phase where
  Name : Type
  Tag : Type
  Mark : Type

namespace Phase

/-- Names as written, untagged expressions, and statements marked with their first token. -/
abbrev parsed : Phase := ⟨String, Unit, Token⟩

/-- Names as written, and the type of every expression and statement. -/
abbrev typed : Phase := ⟨String, Ty, Ty⟩

/-- Slots in place of names. -/
abbrev resolved : Phase := ⟨Nat, Ty, Ty⟩

end Phase

mutual

/-- An expression. -/
inductive Expr (P : Phase) where
  | int (value : Int64) (tag : P.Tag)
  | string (value : String) (tag : P.Tag)
  | bool (value : Bool) (tag : P.Tag)
  | unit (tag : P.Tag)
  | var (name : P.Name) (tag : P.Tag)
  /-- Stores a value and yields it. -/
  | assign (name : P.Name) (value : Expr P) (tag : P.Tag)
  | unary (op : UnaryOp) (operand : Expr P) (tag : P.Tag)
  | binary (op : BinaryOp) (left right : Expr P) (tag : P.Tag)
  /-- A body in braces. -/
  | block (body : List (Stmt P)) (tag : P.Tag)
  /-- A choice with its first condition and body. -/
  | choice (cond : Expr P) (body : List (Stmt P)) (others : Branches P) (tag : P.Tag)
  | loop (cond : Expr P) (body : List (Stmt P)) (tag : P.Tag)

/-- A statement. The value of a body is the value of its last statement. -/
inductive Stmt (P : Phase) where
  | declare (type : Ty) (name : P.Name) (init : Expr P) (mark : P.Mark)
  /-- Prints a value; the tag is that of the value. -/
  | write (newline : Bool) (value : Expr P) (shown : P.Tag) (mark : P.Mark)
  | leave (mark : P.Mark)
  | again (mark : P.Mark)
  | expr (value : Expr P) (mark : P.Mark)

/-- What follows the first body of a choice. -/
inductive Branches (P : Phase) where
  | done
  | otherwise (body : List (Stmt P))
  | orIf (cond : Expr P) (body : List (Stmt P)) (others : Branches P)

end

/-- The statements of a program or of a block. -/
abbrev Body (P : Phase) := List (Stmt P)

def Expr.tag {P : Phase} : Expr P → P.Tag
  | .int _ t | .string _ t | .bool _ t | .unit t | .var _ t | .assign _ _ t | .unary _ _ t
  | .binary _ _ _ t | .block _ t | .choice _ _ _ t | .loop _ _ t => t

def Stmt.mark {P : Phase} : Stmt P → P.Mark
  | .declare _ _ _ m | .write _ _ _ m | .leave m | .again m | .expr _ m => m

end BlockLang

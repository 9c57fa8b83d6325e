import BlockLang.Tree.Basic

/-! The outline of a tree: one line for each node, indented by its depth. A node's line gives its
sort, its own data, and its tag or mark. -/

namespace BlockLang

/-- One line of an outline. -/
structure OutlineLine where
  depth : Nat
  text : String
  deriving DecidableEq, Repr

/-- How the data of a phase are written. -/
class Phase.Written (P : Phase) where
  name : P.Name → String
  tag : P.Tag → String
  mark : P.Mark → String

instance : Phase.Written .parsed where
  name := id
  tag _ := ""
  mark t := " @" ++ toString t.line ++ ":" ++ toString t.column

instance : Phase.Written .typed where
  name := id
  tag t := " : " ++ t.name
  mark t := " : " ++ t.name

instance : Phase.Written .resolved where
  name slot := "#" ++ toString slot
  tag t := " : " ++ t.name
  mark t := " : " ++ t.name

variable {P : Phase} [Phase.Written P]

mutual

def Expr.outline (depth : Nat) : Expr P → List OutlineLine
  | .int value t => [⟨depth, "Int " ++ toString value.toInt ++ Phase.Written.tag t⟩]
  | .string value t => [⟨depth, "String " ++ Text.quote value ++ Phase.Written.tag t⟩]
  | .bool value t => [⟨depth, "Bool " ++ toString value ++ Phase.Written.tag t⟩]
  | .unit t => [⟨depth, "Unit" ++ Phase.Written.tag t⟩]
  | .var name t => [⟨depth, "Var " ++ Phase.Written.name name ++ Phase.Written.tag t⟩]
  | .assign name value t =>
    ⟨depth, "Assign " ++ Phase.Written.name name ++ Phase.Written.tag t⟩
      :: value.outline (depth + 1)
  | .unary op operand t =>
    ⟨depth, "Unary " ++ op.symbol ++ Phase.Written.tag t⟩ :: operand.outline (depth + 1)
  | .binary op left right t =>
    ⟨depth, "Binary " ++ op.symbol ++ Phase.Written.tag t⟩
      :: (left.outline (depth + 1) ++ right.outline (depth + 1))
  | .block body t => ⟨depth, "Block" ++ Phase.Written.tag t⟩ :: outlineBody (depth + 1) body
  | .choice cond body others t =>
    ⟨depth, "If" ++ Phase.Written.tag t⟩
      :: (⟨depth + 1, "Cond"⟩ :: cond.outline (depth + 2)
        ++ ⟨depth + 1, "Then"⟩ :: outlineBody (depth + 2) body
        ++ others.outline (depth + 1))
  | .loop cond body t =>
    ⟨depth, "While" ++ Phase.Written.tag t⟩
      :: (cond.outline (depth + 1) ++ ⟨depth + 1, "Do"⟩ :: outlineBody (depth + 2) body)

def Stmt.outline (depth : Nat) : Stmt P → List OutlineLine
  | .declare type name init m =>
    ⟨depth, "Declare " ++ type.name ++ " " ++ Phase.Written.name name ++ Phase.Written.mark m⟩
      :: init.outline (depth + 1)
  | .write newline value _ m =>
    ⟨depth, (if newline then "Writeln" else "Write") ++ Phase.Written.mark m⟩
      :: value.outline (depth + 1)
  | .leave m => [⟨depth, "Break" ++ Phase.Written.mark m⟩]
  | .again m => [⟨depth, "Continue" ++ Phase.Written.mark m⟩]
  | .expr value m => ⟨depth, "Expr" ++ Phase.Written.mark m⟩ :: value.outline (depth + 1)

/-- The lines of the later branches of a choice. -/
def Branches.outline (depth : Nat) : Branches P → List OutlineLine
  | .done => []
  | .otherwise body => ⟨depth, "Else"⟩ :: outlineBody (depth + 1) body
  | .orIf cond body others =>
    ⟨depth, "Cond"⟩ :: cond.outline (depth + 1)
      ++ ⟨depth, "Then"⟩ :: outlineBody (depth + 1) body
      ++ others.outline depth

def outlineBody (depth : Nat) : List (Stmt P) → List OutlineLine
  | [] => []
  | s :: rest => s.outline depth ++ outlineBody depth rest

end

/-- A line with its indentation, two blanks for each level. -/
def OutlineLine.render (l : OutlineLine) : String :=
  "".pushn ' ' (2 * l.depth) ++ l.text ++ "\n"

def dump (program : Body P) : String := String.join ((outlineBody 0 program).map OutlineLine.render)

end BlockLang

import BlockLang.Tree.Basic

/-! The grammar of programs. A phrase is a list of tokens without the end marker; the grammar says
which phrases belong to a category and what tree each of them stands for. Parentheses leave no trace
in a tree, the number 2^63 belongs to the minus sign in front of it, and a statement is marked with its
first token. -/

namespace BlockLang.Grammar

/-- The categories of phrases. -/
inductive Category where
  | expression
  /-- Operands joined by operators of a level and of tighter ones. -/
  | operation (level : Nat)
  /-- An operand with the operators in front of it. -/
  | operand
  | primary
  /-- What follows the first body of a choice. -/
  | branches
  | block
  | body
  | statement

/-- The trees that the phrases of a category stand for. -/
abbrev Category.Tree : Category → Type
  | expression | operation _ | operand | primary => Expr .parsed
  | branches => Branches .parsed
  | block | body => Body .parsed
  | statement => Stmt .parsed

/-- The operators between two operands, level by level, the loosest first. -/
def levels : List (List (TokenKind × BinaryOp)) :=
  [[(.kwOr, .or)],
   [(.kwAnd, .and)],
   [(.eqEq, .eq), (.neq, .neq), (.lt, .lt), (.lte, .lte), (.gt, .gt), (.gte, .gte)],
   [(.plus, .add), (.minus, .sub)],
   [(.star, .mul), (.slash, .div), (.rem, .rem)]]

/-- A sign stands for an operator of a level. -/
def Joins (level : Nat) (sign : TokenKind) (op : BinaryOp) : Prop :=
  ∃ row, levels[level]? = some row ∧ (sign, op) ∈ row

/-- The operators in front of an operand. -/
def leading : List (TokenKind × UnaryOp) := [(.minus, .negate), (.kwNot, .not), (.dollar, .stringify)]

def typeWords : List (TokenKind × Ty) :=
  [(.kwInt, .int), (.kwString, .string), (.kwBool, .bool), (.kwUnit, .unit)]

/-- The words that print, and whether they end the line. -/
def writeWords : List (TokenKind × Bool) := [(.kwWrite, false), (.kwWriteln, true)]

def truthWords : List (TokenKind × Bool) := [(.kwTrue, true), (.kwFalse, false)]

/-- The number of which only the negation is an integer. -/
def magnitude : Nat := Nat.pow 2 63

/-- A phrase belongs to a category and stands for a tree. -/
inductive Derives : (c : Category) → List Token → c.Tree → Prop where
  | assign {name sign : Token} {w : List Token} {e : Expr .parsed} :
      name.kind = .ident → sign.kind = .eq → Derives .expression w e →
      Derives .expression (name :: sign :: w) (.assign name.text e ())
  | operation {w : List Token} {e : Expr .parsed} :
      Derives (.operation 0) w e → Derives .expression w e
  /-- Operators of one level bind to the left. -/
  | binary {level : Nat} {sign : Token} {op : BinaryOp} {u v : List Token} {a b : Expr .parsed} :
      Joins level sign.kind op → Derives (.operation level) u a →
      Derives (.operation (level + 1)) v b →
      Derives (.operation level) (u ++ sign :: v) (.binary op a b ())
  | tighter {level : Nat} {w : List Token} {e : Expr .parsed} :
      level < levels.length → Derives (.operation (level + 1)) w e → Derives (.operation level) w e
  | operand {w : List Token} {e : Expr .parsed} :
      Derives .operand w e → Derives (.operation levels.length) w e
  | unary {sign : Token} {op : UnaryOp} {w : List Token} {e : Expr .parsed} :
      (sign.kind, op) ∈ leading → Derives .operand w e →
      Derives .operand (sign :: w) (.unary op e ())
  | least {sign number : Token} :
      sign.kind = .minus → number.kind = .number → number.text = toString magnitude →
      Derives .operand [sign, number] (.int Int64.minValue ())
  | primary {w : List Token} {e : Expr .parsed} : Derives .primary w e → Derives .operand w e
  | number {t : Token} {n : Nat} :
      t.kind = .number → t.text = toString n → n < magnitude →
      Derives .primary [t] (.int (Int64.ofNat n) ())
  | string {t : Token} : t.kind = .string → Derives .primary [t] (.string t.text ())
  | truth {t : Token} {b : Bool} :
      (t.kind, b) ∈ truthWords → Derives .primary [t] (.bool b ())
  | var {t : Token} : t.kind = .ident → Derives .primary [t] (.var t.text ())
  | unit {opening closing : Token} :
      opening.kind = .lparen → closing.kind = .rparen → Derives .primary [opening, closing] (.unit ())
  | paren {opening closing : Token} {w : List Token} {e : Expr .parsed} :
      opening.kind = .lparen → Derives .expression w e → closing.kind = .rparen →
      Derives .primary (opening :: (w ++ [closing])) e
  | braced {w : List Token} {body : Body .parsed} :
      Derives .block w body → Derives .primary w (.block body ())
  | choice {word : Token} {u v w : List Token} {cond : Expr .parsed} {body : Body .parsed}
      {others : Branches .parsed} :
      word.kind = .kwIf → Derives .expression u cond → Derives .block v body →
      Derives .branches w others →
      Derives .primary (word :: (u ++ (v ++ w))) (.choice cond body others ())
  | loop {word : Token} {u v : List Token} {cond : Expr .parsed} {body : Body .parsed} :
      word.kind = .kwWhile → Derives .expression u cond → Derives .block v body →
      Derives .primary (word :: (u ++ v)) (.loop cond body ())
  | done : Derives .branches [] .done
  | otherwise {word : Token} {w : List Token} {body : Body .parsed} :
      word.kind = .kwElse → Derives .block w body → Derives .branches (word :: w) (.otherwise body)
  | orIf {word : Token} {u v w : List Token} {cond : Expr .parsed} {body : Body .parsed}
      {others : Branches .parsed} :
      word.kind = .kwElif → Derives .expression u cond → Derives .block v body →
      Derives .branches w others →
      Derives .branches (word :: (u ++ (v ++ w))) (.orIf cond body others)
  | block {opening closing : Token} {w : List Token} {body : Body .parsed} :
      opening.kind = .lbrace → Derives .body w body → closing.kind = .rbrace →
      Derives .block (opening :: (w ++ [closing])) body
  | empty : Derives .body [] []
  | last {w : List Token} {s : Stmt .parsed} : Derives .statement w s → Derives .body w [s]
  | divided {semi : Token} {w rest : List Token} {s : Stmt .parsed} {body : Body .parsed} :
      Derives .statement w s → semi.kind = .semi → Derives .body rest body →
      Derives .body (w ++ semi :: rest) (s :: body)
  /-- Behind a closing brace the next statement may follow at once, unless it would begin with the sign
  of an operator between two operands. -/
  | undivided {brace next : Token} {w rest : List Token} {s : Stmt .parsed} {body : Body .parsed} :
      Derives .statement (w ++ [brace]) s → brace.kind = .rbrace →
      (∀ level op, ¬Joins level next.kind op) → Derives .body (next :: rest) body →
      Derives .body (w ++ brace :: next :: rest) (s :: body)
  | declare {word name sign : Token} {type : Ty} {w : List Token} {init : Expr .parsed} :
      (word.kind, type) ∈ typeWords → name.kind = .ident → sign.kind = .eq →
      Derives .expression w init →
      Derives .statement (word :: name :: sign :: w) (.declare type name.text init word)
  | write {word : Token} {newline : Bool} {w : List Token} {value : Expr .parsed} :
      (word.kind, newline) ∈ writeWords → Derives .expression w value →
      Derives .statement (word :: w) (.write newline value () word)
  | leave {word : Token} : word.kind = .kwBreak → Derives .statement [word] (.leave word)
  | again {word : Token} : word.kind = .kwContinue → Derives .statement [word] (.again word)
  | expr {first : Token} {w : List Token} {value : Expr .parsed} :
      Derives .expression (first :: w) value → Derives .statement (first :: w) (.expr value first)

end BlockLang.Grammar

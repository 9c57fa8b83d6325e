import BlockLang.Diagnostic
import BlockLang.Text.Decimal
import BlockLang.Tree.Basic

/-! Parsing: from tokens to the tree of a program, by recursive descent. Only the first error is
reported. Binary operators are read level by level, each level binding to the left; an assignment
binds to the right and more loosely than all of them.

The depth of the descent is bounded by a number that grows with the stream. It is never reached on a
stream that ends with its end marker; on other streams the last token stays current, and a sign that
opens an operand would be read again without end. -/

namespace BlockLang

/-- What a program was expected to go on with. -/
inductive Expected where
  | variableName (type : TokenKind)
  | declarationSign (name : String)
  | endOfFile
  | closingParen
  | openingBrace
  | closingBrace
  | separator
  deriving DecidableEq, Repr, Inhabited

def Expected.message : Expected → String
  | variableName type => "expected variable name after '" ++ type.name ++ "'"
  | declarationSign name => "expected '=' in declaration of '" ++ name ++ "'"
  | endOfFile => "expected end of file"
  | closingParen => "expected ')'"
  | openingBrace => "expected '\x7b'"
  | closingBrace => "expected '\x7d'"
  | separator => "expected ';' after statement"

/-- Why tokens are not a program. -/
inductive SyntaxCause where
  | missing (what : Expected)
  | noExpression
  | numberOutOfRange
  | endless
  deriving DecidableEq, Repr, Inhabited

/-- A syntax error and the token at which it was found. -/
structure SyntaxError where
  cause : SyntaxCause
  token : Token
  deriving DecidableEq, Repr, Inhabited

def SyntaxError.message (e : SyntaxError) : String :=
  match e.cause with
  | .missing what => what.message ++ ", found " ++ e.token.describe
  | .noExpression => "unexpected " ++ e.token.describe ++ ", expected an expression"
  | .numberOutOfRange => "integer literal out of range: " ++ e.token.text
  | .endless => "unexpected end of the token stream"

def SyntaxError.toDiagnostic (e : SyntaxError) : Diagnostic := ⟨.grammatical, e.token, e.message⟩

/-- A stream of tokens: the current token and the ones behind it, and the token before it. Behind
the last token the stream is empty and that token stays current. -/
structure Stream where
  rest : List Token
  current : Token
  previous : Token := {}
  deriving DecidableEq, Repr

namespace Stream

def ofTokens (tokens : List Token) : Stream := { rest := tokens, current := tokens.headD {} }

/-- Passes the current token. -/
def advance (s : Stream) : Stream :=
  match s.rest with
  | [] => s
  | [_] => { rest := [], current := s.current, previous := s.current }
  | _ :: next :: more => { rest := next :: more, current := next, previous := s.current }

/-- The token behind the current one. -/
def peek (s : Stream) : Token :=
  match s.rest with
  | _ :: next :: _ => next
  | _ => s.current

end Stream

/-- A reader of tokens that may fail. -/
abbrev Parse := StateT Stream (Except SyntaxError)

namespace Parse

def fail {α : Type} (cause : SyntaxCause) (token : Token) : Parse α :=
  fun _ => .error ⟨cause, token⟩

def current : Parse Token := fun s => .ok (s.current, s)

/-- Passes the current token. -/
def advance : Parse Unit := fun s => .ok ((), s.advance)

/-- Passes the current token if it is of the given kind, and says whether it was. -/
def accept (kind : TokenKind) : Parse Bool := fun s =>
  if s.current.kind = kind then .ok (true, s.advance) else .ok (false, s)

/-- Passes the current token, which must be of the given kind. -/
def expect (kind : TokenKind) (what : Expected) : Parse Token := fun s =>
  if s.current.kind = kind then .ok (s.current, s.advance)
  else .error ⟨.missing what, s.current⟩

/-- The type that a type keyword names. -/
def declaredType? : TokenKind → Option Ty
  | .kwInt => some .int
  | .kwString => some .string
  | .kwBool => some .bool
  | .kwUnit => some .unit
  | _ => none

/-- The operator that stands between two operands. -/
def binaryOp? : TokenKind → Option BinaryOp
  | .kwOr => some .or
  | .kwAnd => some .and
  | .eqEq => some .eq
  | .neq => some .neq
  | .lt => some .lt
  | .lte => some .lte
  | .gt => some .gt
  | .gte => some .gte
  | .plus => some .add
  | .minus => some .sub
  | .star => some .mul
  | .slash => some .div
  | .rem => some .rem
  | _ => none

/-- The operator that stands in front of its operand. -/
def unaryOp? : TokenKind → Option UnaryOp
  | .minus => some .negate
  | .kwNot => some .not
  | .dollar => some .stringify
  | _ => none

/-- The digits of 2^63, which are a number only behind a minus sign. -/
def minIntMagnitude : String := "9223372036854775808"

def numberValue (token : Token) : Parse Int64 :=
  match Text.readSigned token.text.toList with
  | .ok value => pure (Int64.ofInt value)
  | .error _ => fail .numberOutOfRange token

mutual

/-- An expression: an assignment or operators and operands. -/
def expr : Nat → Parse (Expr .parsed)
  | 0 => do fail .endless (← current)
  | depth + 1 => do
    let s ← get
    if s.current.kind = .ident ∧ s.peek.kind = .eq then
      advance
      advance
      let value ← expr depth
      return .assign s.current.text value ()
    else binary depth 0

/-- Operators of one level and their operands, which are expressions of the next level. -/
def binary : Nat → Nat → Parse (Expr .parsed)
  | 0, _ => do fail .endless (← current)
  | depth + 1, level =>
    if BinaryOp.tightest < level then unary depth
    else do
      let left ← binary depth (level + 1)
      operators depth level left

/-- The operators of one level behind their left operand. -/
def operators : Nat → Nat → Expr .parsed → Parse (Expr .parsed)
  | 0, _, _ => do fail .endless (← current)
  | depth + 1, level, left => do
    let token ← current
    match binaryOp? token.kind with
    | none => return left
    | some op =>
      if op.level = level then
        advance
        let right ← binary depth (level + 1)
        operators depth level (.binary op left right ())
      else return left

/-- An operand with the operators in front of it. -/
def unary : Nat → Parse (Expr .parsed)
  | 0 => do fail .endless (← current)
  | depth + 1 => do
    let token ← current
    match unaryOp? token.kind with
    | none => primary depth
    | some op =>
      advance
      let next ← current
      if op = .negate ∧ next.kind = .number ∧ next.text = minIntMagnitude then
        advance
        return .int Int64.minValue ()
      else
        let operand ← unary depth
        return .unary op operand ()

def primary : Nat → Parse (Expr .parsed)
  | 0 => do fail .endless (← current)
  | depth + 1 => do
    let token ← current
    match token.kind with
    | .number =>
      advance
      return .int (← numberValue token) ()
    | .string =>
      advance
      return .string token.text ()
    | .kwTrue =>
      advance
      return .bool true ()
    | .kwFalse =>
      advance
      return .bool false ()
    | .ident =>
      advance
      return .var token.text ()
    | .lparen =>
      advance
      if ← accept .rparen then return .unit ()
      else
        let inner ← expr depth
        let _ ← expect .rparen .closingParen
        return inner
    | .lbrace => return .block (← block depth) ()
    | .kwIf =>
      advance
      let cond ← expr depth
      let body ← block depth
      let others ← branches depth
      return .choice cond body others ()
    | .kwWhile =>
      advance
      let cond ← expr depth
      let body ← block depth
      return .loop cond body ()
    | _ => fail .noExpression token

/-- What follows the first body of a choice. -/
def branches : Nat → Parse (Branches .parsed)
  | 0 => do fail .endless (← current)
  | depth + 1 => do
    if ← accept .kwElif then
      let cond ← expr depth
      let body ← block depth
      let others ← branches depth
      return .orIf cond body others
    else if ← accept .kwElse then
      return .otherwise (← block depth)
    else return .done

def block : Nat → Parse (Body .parsed)
  | 0 => do fail .endless (← current)
  | depth + 1 => do
    let _ ← expect .lbrace .openingBrace
    let body ← stmts depth .rbrace
    let _ ← expect .rbrace .closingBrace
    return body

/-- Statements up to a token of the kind `stop` or the end of the stream. Statements are divided by
`;`, which may be left out in front of `stop` and behind a closing brace. -/
def stmts : Nat → TokenKind → Parse (Body .parsed)
  | 0, _ => do fail .endless (← current)
  | depth + 1, stop => do
    let first ← current
    if first.kind = stop ∨ first.kind = .eof then return []
    else
      let s ← stmt depth
      let divided ← accept .semi
      let behind ← get
      if divided ∨ behind.current.kind = stop ∨ behind.current.kind = .eof
          ∨ behind.previous.kind = .rbrace then
        let rest ← stmts depth stop
        return s :: rest
      else fail (.missing .separator) behind.current

def stmt : Nat → Parse (Stmt .parsed)
  | 0 => do fail .endless (← current)
  | depth + 1 => do
    let token ← current
    match declaredType? token.kind with
    | some type =>
      advance
      let name ← expect .ident (.variableName token.kind)
      let _ ← expect .eq (.declarationSign name.text)
      let init ← expr depth
      return .declare type name.text init token
    | none =>
      match token.kind with
      | .kwWrite =>
        advance
        return .write false (← expr depth) () token
      | .kwWriteln =>
        advance
        return .write true (← expr depth) () token
      | .kwBreak =>
        advance
        return .leave token
      | .kwContinue =>
        advance
        return .again token
      | _ => return .expr (← expr depth) token

end

/-- The bound on the depth of the descent: between two tokens it goes down by less than sixteen
steps. -/
def depthBound (tokens : List Token) : Nat := 16 * (tokens.length + 2)

def program (depth : Nat) : Parse (Body .parsed) := do
  let body ← stmts depth .eof
  let _ ← expect .eof .endOfFile
  return body

end Parse

/-- The tree of a list of tokens, or its first syntax error. -/
def parse (tokens : List Token) : Except SyntaxError (Body .parsed) :=
  (Parse.program (Parse.depthBound tokens)).run' (Stream.ofTokens tokens)

end BlockLang

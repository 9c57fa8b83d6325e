import BlockLang.Text.Quoted

/-! Tokens: the kinds of words and signs of the language, and a word's place in its source. Kinds
are numbered in the order in which they are listed here, and any other number is a kind without a
name, so that a stream of tokens from outside can always be represented. -/

namespace BlockLang

/-- What sort of word or sign a token is. -/
inductive TokenKind where
  | eof
  | ident
  | number
  | string
  | kwInt
  | kwString
  | kwBool
  | kwUnit
  | kwTrue
  | kwFalse
  | kwWrite
  | kwWriteln
  | kwAnd
  | kwOr
  | kwNot
  | kwIf
  | kwElif
  | kwElse
  | kwWhile
  | kwBreak
  | kwContinue
  | eq
  | eqEq
  | neq
  | lt
  | lte
  | gt
  | gte
  | plus
  | minus
  | star
  | slash
  | rem
  | dollar
  | semi
  | lbrace
  | rbrace
  | lparen
  | rparen
  | unnamed (code : Int)
  deriving DecidableEq, Repr, Inhabited

namespace TokenKind

/-- The named kinds in order; a kind's number is its place in this list. -/
def named : List TokenKind :=
  [eof, ident, number, string, kwInt, kwString, kwBool, kwUnit, kwTrue, kwFalse, kwWrite, kwWriteln,
   kwAnd, kwOr, kwNot, kwIf, kwElif, kwElse, kwWhile, kwBreak, kwContinue, eq, eqEq, neq, lt, lte,
   gt, gte, plus, minus, star, slash, rem, dollar, semi, lbrace, rbrace, lparen, rparen]

def ofCode (code : Int) : TokenKind :=
  if code < 0 then unnamed code else (named[code.toNat]?).getD (unnamed code)

/-- The words that are never names of variables. -/
def keywords : List (String × TokenKind) :=
  [("int", kwInt), ("string", kwString), ("bool", kwBool), ("unit", kwUnit), ("true", kwTrue),
   ("false", kwFalse), ("write", kwWrite), ("writeln", kwWriteln), ("and", kwAnd), ("or", kwOr),
   ("not", kwNot), ("if", kwIf), ("elif", kwElif), ("else", kwElse), ("while", kwWhile),
   ("break", kwBreak), ("continue", kwContinue)]

/-- How a kind is spelled or, for the kinds that have no spelling of their own, called. -/
def name : TokenKind → String
  | eof => "end of file"
  | ident => "identifier"
  | number => "number"
  | string => "string literal"
  | kwInt => "int"
  | kwString => "string"
  | kwBool => "bool"
  | kwUnit => "unit"
  | kwTrue => "true"
  | kwFalse => "false"
  | kwWrite => "write"
  | kwWriteln => "writeln"
  | kwAnd => "and"
  | kwOr => "or"
  | kwNot => "not"
  | kwIf => "if"
  | kwElif => "elif"
  | kwElse => "else"
  | kwWhile => "while"
  | kwBreak => "break"
  | kwContinue => "continue"
  | eq => "="
  | eqEq => "=="
  | neq => "!="
  | lt => "<"
  | lte => "<="
  | gt => ">"
  | gte => ">="
  | plus => "+"
  | minus => "-"
  | star => "*"
  | slash => "/"
  | rem => "%"
  | dollar => "$"
  | semi => ";"
  | lbrace => "\x7b"
  | rbrace => "\x7d"
  | lparen => "("
  | rparen => ")"
  | unnamed code => "token(" ++ toString code ++ ")"

/-- Whether a kind is the name of a value type. -/
def isTypeKeyword : TokenKind → Bool
  | kwInt | kwString | kwBool | kwUnit => true
  | _ => false

end TokenKind

/-- A token: its kind, the text of a name, number or string literal, the source it belongs to,
and the place and number of its code points there. -/
structure Token where
  kind : TokenKind := .eof
  text : String := ""
  file : Int := 0
  line : Int := 0
  column : Int := 0
  len : Int := 0
  deriving DecidableEq, Repr, Inhabited

namespace Token

/-- How a diagnostic speaks of a token. -/
def describe (t : Token) : String :=
  match t.kind with
  | .ident | .number => "'" ++ t.text ++ "'"
  | .string => Text.quote t.text
  | .eof => t.kind.name
  | _ => "'" ++ t.kind.name ++ "'"

end Token

end BlockLang

import BlockLang.Diagnostic
import BlockLang.Text.Decimal
import BlockLang.Text.Digit
import BlockLang.Text.Letter

/-! Scanning: from the code points of a source to its tokens. One step skips blanks and comments and
reads one token or one error; after an error the next step goes on behind the text that it covers,
so the steps together cover the whole source. -/

namespace BlockLang

/-- Why a piece of source is not a token. -/
inductive LexicalCause where
  | unexpected (c : Char)
  | remainderDisabled
  | stringifyDisabled
  | numberOutOfRange (digits : String)
  | numberMalformed (digits : String)
  | unterminatedString
  deriving DecidableEq, Repr, Inhabited

/-- How a lexical error is worded. -/
def LexicalCause.message : LexicalCause → String
  | unexpected c => "unexpected character: '" ++ c.toString ++ "'"
  | remainderDisabled => "the '%' operator is disabled (use -Fremainder)"
  | stringifyDisabled => "the '$' operator is disabled (use -Fstringify)"
  | numberOutOfRange digits => "integer literal out of range: " ++ digits
  | numberMalformed digits => "malformed integer literal: " ++ digits
  | unterminatedString => "unterminated string literal"

/-- A lexical error and the text that it covers. -/
structure LexicalError where
  cause : LexicalCause
  token : Token
  deriving DecidableEq, Repr, Inhabited

def LexicalError.toDiagnostic (e : LexicalError) : Diagnostic :=
  ⟨.lexical, e.token, e.cause.message⟩

/-- A place in a source: the number of code points before it, its line and its column. -/
structure Position where
  offset : Nat := 0
  line : Nat := 1
  column : Nat := 1
  deriving DecidableEq, Repr, Inhabited

namespace Position

/-- The place behind a code point. -/
def after (p : Position) (c : Char) : Position :=
  if c = '\n' then ⟨p.offset + 1, p.line + 1, 1⟩ else ⟨p.offset + 1, p.line, p.column + 1⟩

/-- The place behind a piece of text. -/
def advance (p : Position) (cs : List Char) : Position := cs.foldl after p

end Position

/-- What is left to scan, and where it begins. -/
structure Cursor where
  rest : List Char
  pos : Position := {}
  deriving DecidableEq, Repr, Inhabited

/-- The result of one step: a token or an error, the warnings that it gave rise to, and where the
next step goes on. -/
structure Scanned where
  outcome : Except LexicalError Token
  notices : List Notice := []
  cursor : Cursor

/-- Whether a step reached the end of the source. -/
def Scanned.isLast (s : Scanned) : Bool :=
  match s.outcome with
  | .ok token => token.kind == .eof
  | .error _ => false

namespace Scan

/-- Blank space between tokens. -/
def isBlank (c : Char) : Bool := c == ' ' || c == '\t' || c == '\n' || c == '\r'

/-- Skips blanks and, where they are recognised, comments. A comment runs up to its line's end. -/
def skipBlanks (comments inComment : Bool) : List Char → Position → Cursor
  | [], p => ⟨[], p⟩
  | c :: rest, p =>
    if inComment && c != '\n' then skipBlanks comments true rest (p.after c)
    else if isBlank c then skipBlanks comments false rest (p.after c)
    else if comments && c == '/' && rest.head? == some '/' then
      skipBlanks comments true rest (p.after c)
    else ⟨c :: rest, p⟩

def span (file : Int) (start stop : Position) (kind : TokenKind) (text : String) : Token :=
  { kind, text, file, line := start.line, column := start.column,
    len := (stop.offset - start.offset : Nat) }

/-- Whether a code point may begin a name. -/
def isNameStart (c : Char) : Bool := Text.isLetter c || c == '_'

/-- Whether a code point may stand inside a name. -/
def isNamePart (c : Char) : Bool := Text.isLetter c || Text.isDigit c || c == '_'

def word (file : Int) (start : Position) (cs : List Char) : Scanned :=
  let lexeme := cs.takeWhile isNamePart
  let stop := start.advance lexeme
  let text := String.ofList lexeme
  let token := match TokenKind.keywords.lookup text with
    | some kind => span file start stop kind ""
    | none => span file start stop .ident text
  { outcome := .ok token, cursor := ⟨cs.dropWhile isNamePart, stop⟩ }

/-- A number: digits, and the letters that follow them, which make it malformed. The largest
number that is let through is 2^63, whose negation is the smallest integer. -/
def number (file : Int) (start : Position) (cs : List Char) : Scanned :=
  let digits := cs.takeWhile Text.isDigit
  let behind := cs.dropWhile Text.isDigit
  let lexeme := digits ++ behind.takeWhile isNameStart
  let stop := start.advance lexeme
  let text := String.ofList lexeme
  let token := span file start stop .number text
  let outcome := match Text.readUnsigned lexeme with
    | .ok value =>
      if Nat.pow 2 63 < value then .error ⟨.numberOutOfRange text, token⟩
      else .ok { token with text := toString value }
    | .error .outOfRange => .error ⟨.numberOutOfRange text, token⟩
    | .error .malformed => .error ⟨.numberMalformed text, token⟩
  { outcome, cursor := ⟨behind.dropWhile isNameStart, stop⟩ }

/-- The inside of a string literal: its content, whether its closing quote was found, the warnings
of its escapes, and what is behind it. -/
structure Literal where
  content : List Char := []
  closed : Bool
  notices : List Notice := []
  cursor : Cursor

namespace Literal

/-- Puts a piece of content in front. -/
def prepend (cs : List Char) (l : Literal) : Literal := { l with content := cs ++ l.content }

def warn (n : Notice) (l : Literal) : Literal := { l with notices := n :: l.notices }

end Literal

/-- The code point that an escape stands for. -/
def unescape? : Char → Option Char
  | 'n' => some '\n'
  | 't' => some '\t'
  | '"' => some '"'
  | '\\' => some '\\'
  | _ => none

/-- Reads a string literal up to its closing quote, or to the end of its line. An unknown escape is
kept as it is written and gives a warning. A backslash at the end of the source escapes nothing. -/
def literal (escapes : Bool) (file : Int) : List Char → Position → Literal
  | [], p => { closed := false, cursor := ⟨[], p⟩ }
  | '"' :: rest, p => { closed := true, cursor := ⟨rest, p.after '"'⟩ }
  | '\n' :: rest, p => { closed := false, cursor := ⟨'\n' :: rest, p⟩ }
  | '\\' :: c :: rest, p =>
    if escapes then
      let stop := (p.after '\\').after c
      let tail := literal escapes file rest stop
      match unescape? c with
      | some meant => tail.prepend [meant]
      | none =>
        let token : Token :=
          { kind := .string, file, line := stop.line, column := p.column, len := 2 }
        (tail.prepend ['\\', c]).warn ⟨.unknownEscape c, token⟩
    else (literal escapes file (c :: rest) (p.after '\\')).prepend ['\\']
  | c :: rest, p => (literal escapes file rest (p.after c)).prepend [c]

/-- A string literal whose opening quote is at `start`. -/
def string (escapes : Bool) (file : Int) (start : Position) (cs : List Char) : Scanned :=
  let body := literal escapes file cs (start.after '"')
  let stop := body.cursor.pos
  let outcome :=
    if body.closed then .ok (span file start stop .string (String.ofList body.content))
    else .error ⟨.unterminatedString, span file start stop .string ""⟩
  { outcome, notices := body.notices, cursor := body.cursor }

/-- A sign of one code point, or of two if the second is `=`. -/
def sign (file : Int) (start : Position) (c : Char) (rest : List Char) (single double : TokenKind) :
    Scanned :=
  match rest with
  | '=' :: rest =>
    let stop := (start.after c).after '='
    { outcome := .ok (span file start stop double ""), cursor := ⟨rest, stop⟩ }
  | _ =>
    let stop := start.after c
    { outcome := .ok (span file start stop single ""), cursor := ⟨rest, stop⟩ }

def next (settings : Settings) (file : Int) (cursor : Cursor) : Scanned :=
  let ⟨rest, start⟩ := skipBlanks (settings.feature .comments) false cursor.rest cursor.pos
  match rest with
  | [] => { outcome := .ok (span file start start .eof ""), cursor := ⟨[], start⟩ }
  | c :: rest =>
    if isNameStart c then word file start (c :: rest)
    else if Text.isDigit c then number file start (c :: rest)
    else
      let stop := start.after c
      let one (kind : TokenKind) : Scanned :=
        { outcome := .ok (span file start stop kind ""), cursor := ⟨rest, stop⟩ }
      let fail (cause : LexicalCause) (kind : TokenKind) : Scanned :=
        { outcome := .error ⟨cause, span file start stop kind ""⟩, cursor := ⟨rest, stop⟩ }
      match c with
      | '(' => one .lparen
      | ')' => one .rparen
      | '\x7b' => one .lbrace
      | '\x7d' => one .rbrace
      | ';' => one .semi
      | '+' => one .plus
      | '-' => one .minus
      | '*' => one .star
      | '/' => one .slash
      | '=' => sign file start c rest .eq .eqEq
      | '<' => sign file start c rest .lt .lte
      | '>' => sign file start c rest .gt .gte
      | '!' =>
        match rest with
        | '=' :: _ => sign file start c rest .neq .neq
        | _ => fail (.unexpected c) .eof
      | '%' => if settings.feature .remainder then one .rem else fail .remainderDisabled .rem
      | '$' => if settings.feature .stringify then one .dollar else fail .stringifyDisabled .dollar
      | '"' => string (settings.feature .escapes) file start rest
      | _ => fail (.unexpected c) .eof

/-- At most `count` steps, up to and including the one that reaches the end. -/
def stepsFrom (settings : Settings) (file : Int) : Nat → Cursor → List Scanned
  | 0, _ => []
  | count + 1, cursor =>
    let step := next settings file cursor
    if step.isLast then [step] else step :: stepsFrom settings file count step.cursor

/-- All steps over a source. Every step but the last covers at least one code point, so there is at
most one step more than there are code points. -/
def steps (settings : Settings) (file : Int) (source : List Char) : List Scanned :=
  stepsFrom settings file (source.length + 1) { rest := source }

/-- The tokens of a list of steps up to the first error. -/
def collect : List Scanned → List Notice × Except LexicalError (List Token)
  | [] => ([], .ok [])
  | step :: rest =>
    match step.outcome with
    | .error e => (step.notices, .error e)
    | .ok token =>
      let (notices, tokens) := collect rest
      (step.notices ++ notices, tokens.map (token :: ·))

/-- The tokens of a source, of which the last one marks its end, and the warnings found on the
way. -/
def tokenize (settings : Settings) (file : Int) (source : List Char) :
    List Notice × Except LexicalError (List Token) :=
  collect (steps settings file source)

end Scan

end BlockLang

import BlockLang.Settings
import BlockLang.Token.Basic

/-! Diagnostics: errors and warnings that point at a token, and the way they are shown, which is the
place of the token, the message, the source line, and a caret under the token's first code point.

A token from outside may carry a place that no source has. A place without a line is shown without
one; only a negative line number, for which there is nothing to show, makes the rendering fail. -/

namespace BlockLang

/-- The stage of a compilation that found an error. -/
inductive Stage where
  | lexical
  | grammatical
  | typing
  | unnamed
  deriving DecidableEq, Repr, Inhabited

/-- The word for a stage in front of `error`. -/
def Stage.name : Stage → String
  | lexical => "lexer"
  | grammatical => "syntax"
  | typing => "type"
  | unnamed => "unknown"

/-- An error at a token. -/
structure Diagnostic where
  stage : Stage
  token : Token
  text : String
  deriving DecidableEq, Repr, Inhabited

/-- The one-line form of an error. -/
def Diagnostic.message (d : Diagnostic) : String :=
  d.stage.name ++ " error at line " ++ toString d.token.line ++ ", column "
    ++ toString d.token.column ++ ": " ++ d.text

/-- What a warning is about. -/
inductive Concern where
  | shadows (name : String)
  | constantCondition (construct : String) (value : Bool)
  | selfAssignment (name : String)
  | unknownEscape (c : Char)
  deriving DecidableEq, Repr, Inhabited

namespace Concern

/-- The warning that a concern falls under. -/
def warning : Concern → Warning
  | shadows _ => .shadow
  | constantCondition _ _ => .constCond
  | selfAssignment _ => .selfAssign
  | unknownEscape _ => .unknownEscape

def message : Concern → String
  | shadows name =>
    "declaration of '" ++ name ++ "' shadows a variable of an enclosing block"
  | constantCondition construct value =>
    "'" ++ construct ++ "' condition is always " ++ toString value
  | selfAssignment name => "variable '" ++ name ++ "' is assigned to itself"
  | unknownEscape c => "unrecognized escape sequence '\\" ++ c.toString ++ "'"

end Concern

/-- A warning at a token. Every warning is recorded; the settings decide which ones are shown. -/
structure Notice where
  concern : Concern
  token : Token
  deriving DecidableEq, Repr, Inhabited

/-- A named source text. -/
structure Source where
  name : String
  content : List Char
  deriving DecidableEq, Repr, Inhabited

/-- The lines of a text: what stands between its newlines. -/
def splitLines : List Char → List (List Char)
  | [] => [[]]
  | c :: rest =>
    if c = '\n' then [] :: splitLines rest
    else
      match splitLines rest with
      | [] => [[c]]
      | line :: lines => (c :: line) :: lines

/-- The sources that tokens refer to by number. -/
abbrev Sources := List Source

namespace Sources

def find? (sources : Sources) (t : Token) : Option Source :=
  if t.file < 0 then none else sources[t.file.toNat]?

/-- The place of a token as `name:line:column`. -/
def place (sources : Sources) (t : Token) : String :=
  let name := match sources.find? t with
    | some source => source.name
    | none => "<input>"
  name ++ ":" ++ toString t.line ++ ":" ++ toString t.column

/-- The caret under a token: a `^`, followed by a `~` for each further code point. -/
def caret (t : Token) : String :=
  "".pushn ' ' (t.column - 1).toNat ++ "^" ++ "".pushn '~' (t.len - 1).toNat

/-- The source line of a token and the caret under it, both indented. Nothing is shown for a token
without a source or without a line in it; `none` means a negative line. -/
def excerpt? (sources : Sources) (t : Token) : Option String :=
  match sources.find? t with
  | none => some ""
  | some source =>
    if t.line = 0 then some ""
    else
      let lines := splitLines source.content
      if (lines.length : Int) < t.line then some ""
      else if t.line < 0 then none
      else
        (lines[(t.line - 1).toNat]?).map fun line =>
          "  " ++ String.ofList line ++ "\n  " ++ caret t ++ "\n"

/-- An error as it is shown to the user. The colours in which a terminal shows the word for it and the
caret are left out, here and in all other diagnostics. -/
def report? (sources : Sources) (d : Diagnostic) : Option String :=
  (sources.excerpt? d.token).map fun lines =>
    sources.place d.token ++ ": " ++ d.stage.name ++ " error: " ++ d.text ++ "\n" ++ lines

/-- A warning of a given name as it is shown to the user. -/
def caution? (sources : Sources) (t : Token) (name text : String) : Option String :=
  (sources.excerpt? t).map fun lines =>
    sources.place t ++ ": warning: " ++ text ++ " [-W" ++ name ++ "]\n" ++ lines

/-- A recorded warning as it is shown to the user. -/
def showNotice (sources : Sources) (n : Notice) : String :=
  (sources.caution? n.token n.concern.warning.name n.concern.message).getD ""

/-- The warnings that the settings let through, in order. -/
def showNotices (sources : Sources) (settings : Settings) (notices : List Notice) : String :=
  String.join ((notices.filter fun n => settings.warns n.concern.warning).map sources.showNotice)

end Sources

/-- An error without a place as it is shown to the user. -/
def plainReport (message : String) : String := "swindle: error: " ++ message ++ "\n"

end BlockLang

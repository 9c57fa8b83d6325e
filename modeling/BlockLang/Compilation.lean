import BlockLang.Bytecode.Emit
import BlockLang.Digest
import BlockLang.Log
import BlockLang.Token.Scan
import BlockLang.Tree.Check
import BlockLang.Tree.Parse
import BlockLang.Tree.Resolve

/-! The stages of a compilation in a row: tokens, tree, types, slots, code. Each stage reports what
it begins with, and the warnings come between these reports. -/

namespace BlockLang

/-- Why a source does not compile. -/
inductive CompileError where
  | lexical (e : LexicalError)
  | grammatical (e : SyntaxError)
  | typing (e : TypeError)
  | unresolved (e : Unresolved)
  | emit (e : EmitError)
  deriving DecidableEq, Repr, Inhabited

namespace CompileError

/-- The diagnostic of an error in the source; the other errors are not the source's. -/
def diagnostic? : CompileError → Option Diagnostic
  | lexical e => some e.toDiagnostic
  | grammatical e => some e.toDiagnostic
  | typing e => some e.toDiagnostic
  | unresolved _ | emit _ => none

/-- The one-line form of an error. -/
def message : CompileError → String
  | lexical e => e.toDiagnostic.message
  | grammatical e => e.toDiagnostic.message
  | typing e => e.toDiagnostic.message
  | unresolved e => e.message
  | emit e => e.message

end CompileError

/-- What happens during a compilation. -/
inductive Event where
  | logged (entry : LogEntry)
  | noticed (notice : Notice)
  deriving DecidableEq, Repr, Inhabited

/-- The result of some stages, and what happened on the way. -/
structure Compiled (α : Type) where
  events : List Event
  result : Except CompileError α

namespace Compilation

def report (text : String) : Event := .logged ⟨.info, "swindle.driver", text⟩

def parsed (settings : Settings) (name : String) (source : List Char) :
    Compiled (Body .parsed) :=
  let (notices, tokens) := Scan.tokenize settings 0 source
  let events := report ("tokenizing " ++ name) :: notices.map .noticed
  match tokens with
  | .error e => ⟨events, .error (.lexical e)⟩
  | .ok tokens =>
    ⟨events ++ [report ("parsing " ++ toString tokens.length ++ " tokens")],
      (parse tokens).mapError .grammatical⟩

def typed (settings : Settings) (name : String) (source : List Char) : Compiled (Body .typed) :=
  let stage := parsed settings name source
  match stage.result with
  | .error e => ⟨stage.events, .error e⟩
  | .ok program =>
    let (result, checker) := ({} : Checker).check program
    let started := report ("type checking " ++ toString program.length ++ " statements")
    ⟨stage.events ++ started :: checker.notices.map .noticed, result.mapError .typing⟩

/-- The tree of a source with slots, and their number. -/
def resolved (settings : Settings) (name : String) (source : List Char) :
    Compiled (Body .resolved × Nat) :=
  let stage := typed settings name source
  match stage.result with
  | .error e => ⟨stage.events, .error e⟩
  | .ok program => ⟨stage.events, (resolve program).mapError .unresolved⟩

/-- The compiled form of a source, which carries its hash. -/
def compiled (settings : Settings) (name : String) (source : List Char) : Compiled Program :=
  let stage := resolved settings name source
  match stage.result with
  | .error e => ⟨stage.events, .error e⟩
  | .ok (program, slots) =>
    let events := stage.events ++ [report ("resolved " ++ toString slots ++ " slots")]
    match generate program slots with
    | .error e => ⟨events, .error (.emit e)⟩
    | .ok p =>
      let p := { p with sourceHash := Digest.ofSource source }
      let done := "compiled " ++ toString p.instrs.size ++ " instructions, "
        ++ toString p.labelCount.toInt ++ " labels, " ++ toString p.constants.size ++ " strings"
      ⟨events ++ [report done], .ok p⟩

/-- The warnings among some events. -/
def notices (events : List Event) : List Notice :=
  events.filterMap fun
    | .noticed n => some n
    | .logged _ => none

def entries (events : List Event) : List LogEntry :=
  events.filterMap fun
    | .logged e => some e
    | .noticed _ => none

end Compilation

end BlockLang

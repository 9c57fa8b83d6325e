import BlockLang.Bytecode.Listing
import BlockLang.CommandLine.App
import BlockLang.Machine.Run
import BlockLang.Settings.Environment
import BlockLang.Settings.File
import BlockLang.Settings.Flags
import BlockLang.Tool.Session
import BlockLang.Tree.Outline

/-! The command line tool of the language: it compiles, stores, loads and runs programs and shows
their trees and code. Settings come from a file, then from the environment, then from flags. -/

namespace BlockLang.CompilerTool

def app : App where
  name := "swindle"
  synopsis := "[command] [options] <file>"
  description := "A compiler and virtual machine for the swindle language. Programs are type "
    ++ "checked, compiled to bytecode and run on a stack machine with reference counted strings."
  authors := ["xplshn"]
  repository := "<https://github.com/xplshn/swindle>"
  since := 2025
  default := "run"
  commands := [
    ⟨"run", "<file.sw>", "Compile and run a program"⟩,
    ⟨"build", "<file.sw>", "Compile a program to bytecode"⟩,
    ⟨"exec", "<file.swbc>", "Run a compiled program"⟩,
    ⟨"dump", "<file.sw>", "Print the type-checked tree (--ast) or the bytecode (--bytecode)"⟩]

/-- The flags of the tool apart from those of the settings. -/
def ownFlags : List Flag := [
  Flag.ofText "output" "o" "" "Place the compiled program into <file>." "file",
  Flag.ofSwitch "cache" "c" false
    "Reuse and refresh the compiled program cached next to the source.",
  Flag.ofSwitch "trace" "" false "Log every executed instruction.",
  Flag.ofSwitch "leak-check" "" false
    "Fail when heap strings are still live after the program halts.",
  Flag.ofSwitch "pedantic" "" false "Issue every warning.",
  Flag.ofCount "verbose" "v" "Increase log verbosity (repeatable).",
  Flag.ofSwitch "ast" "" false "With 'dump', print the type-checked tree.",
  Flag.ofSwitch "bytecode" "" false "With 'dump', print the disassembled bytecode.",
  Flag.ofSwitch "show-config" "" false
    "Print the effective warnings and features before running."]

def flags : Except DefineError FlagSet := do
  ({} : Settings).defineFlags (← ownFlags.foldlM FlagSet.define {})

/-- Obeys the flags of the tool. Tracing raises the verbosity to the level of its messages. -/
def applyFlags (f : FlagSet) (s : Settings) : Settings :=
  let s := s.applyFlagSet f
  let s := if f.isOn "pedantic" then s.setWarning .pedantic true else s
  let s := if f.isGiven "trace" then { s with trace := f.isOn "trace" } else s
  let s := if f.isGiven "leak-check" then { s with leakCheck := f.isOn "leak-check" } else s
  let s := if f.isGiven "verbose" then { s with verbosity := f.numberOf "verbose" } else s
  if s.trace ∧ s.verbosity < 2 then { s with verbosity := 2 } else s

/-- Puts the settings for a file in force. -/
def configure (env : Environment) (f : FlagSet) (path : String) : Act Unit := do
  let s ← get
  let found := s.settings.find s.disk (Path.folder path)
  if let some e := found.error then Act.fail e.message
  modify fun s =>
    { s with settings := applyFlags f (found.settings.applyEnvironment env) }
  if let some loaded := found.path then Act.log ⟨.info, "swindle.main", "loaded " ++ loaded⟩
  if f.isOn "show-config" then Act.printError (← get).settings.describe

/-- The single file of a command, for which the settings are put in force. -/
def oneFile (env : Environment) (f : FlagSet) (command : String) (args : List String) :
    Act String := do
  match args with
  | [path] =>
    configure env f path
    return path
  | _ =>
    Act.fail (command ++ ": expected exactly one input file, got " ++ toString args.length)

def logAll : List LogEntry → Act Unit
  | [] => pure ()
  | e :: rest => do
    Act.log e
    logAll rest

/-- Runs a program for at most a number of steps. What it writes appears when it has halted; the
output of a session refuses nothing. -/
def execute (limit : Nat) (p : Program) : Act Unit := do
  let s := (← get).settings
  match Machine.new p with
  | .error f => throw (.crashed (f.message?.getD "runtime error"))
  | .ok (m, start) =>
    let report := m.run s.trace s.leakCheck limit start
    logAll (report.moments.map (·.entry))
    match report.ending with
    | .faulty f => throw (.crashed (f.message?.getD "runtime error"))
    | .unfinished _ => throw .cutOff
    | .halted error final =>
      let (written, error) := Machine.deliver none error final.output
      Act.print written
      if let some e := error then Act.fail e.message

def readSource (path : String) : Act (List Char) := do
  Act.orFail Disk.SourceError.message ((← get).disk.readSource path)

/-- Compiles and runs a program, with the help of the disk if asked to. -/
def run (limit : Nat) (f : FlagSet) (path : String) : Act Unit := do
  let source ← readSource path
  let sources : Sources := [⟨path, source⟩]
  let s ← get
  if f.isOn "cache" then
    let o := Cache.compile s.disk s.settings path source
    modify fun s => { s with disk := o.disk }
    execute limit (← Act.take sources o.compiled)
  else
    execute limit (← Act.take sources (Compilation.compiled s.settings path source))

def save (path : String) (p : Program) : Act Unit := do
  let disk ← Act.orFail DiskError.message ((← get).disk.saveProgram path p)
  modify fun s => { s with disk }

/-- Compiles a program and stores the result. -/
def build (f : FlagSet) (path : String) : Act Unit := do
  let source ← readSource path
  let p ← Act.take [⟨path, source⟩] (Compilation.compiled (← get).settings path source)
  let out := f.textOf "output"
  save (if out = "" then Cache.path path else out) p

def exec (limit : Nat) (path : String) : Act Unit := do
  execute limit (← Act.orFail LoadError.message ((← get).disk.loadProgram path))

/-- Shows the tree or the code of a program, or both. -/
def dump (f : FlagSet) (path : String) : Act Unit := do
  let source ← readSource path
  let sources : Sources := [⟨path, source⟩]
  let settings := (← get).settings
  if f.isOn "ast" || !f.isOn "bytecode" then
    Act.print (BlockLang.dump (← Act.take sources (Compilation.typed settings path source)))
  if f.isOn "bytecode" then
    let p ← Act.take sources (Compilation.compiled settings path source)
    Act.print (p.listing?.getD "")

def perform (limit : Nat) (env : Environment) (f : FlagSet) (command : String)
    (args : List String) : Act Unit := do
  let path ← oneFile env f command args
  match command with
  | "run" => run limit f path
  | "build" => build f path
  | "exec" => exec limit path
  | _ => dump f path

def obey (years : String) (limit : Nat) (env : Environment) (arguments : List String) :
    Act Unit := do
  match flags with
  | .error e => throw (.crashed e.message)
  | .ok f =>
    match app.request f arguments with
    | .error e => throw (.crashed e.message)
    | .ok (f, .misuse message) =>
      Act.printError (app.complaint f message)
      throw .misused
    | .ok (f, .help) => Act.print ((app.helpPage? f years).getD "")
    | .ok (f, .run command args) => perform limit env f command.name args

/-- Runs the tool on a disk, where a program may take at most a number of steps. -/
def start (years : String) (limit : Nat) (env : Environment) (disk : Disk)
    (arguments : List String) : Outcome :=
  (obey years limit env arguments).perform disk

end BlockLang.CompilerTool

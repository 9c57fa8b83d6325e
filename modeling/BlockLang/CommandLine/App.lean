import BlockLang.CommandLine.FlagSet
import BlockLang.Text.Pad
import BlockLang.Text.Wrap

/-! A command line tool: its commands, its pages of help, and how its arguments select a command.
Columns of a page are as wide as their widest entry is in bytes and are filled with blanks up to
as many characters. -/

namespace BlockLang

/-- A command of a tool. -/
structure Command where
  name : String
  usage : String
  synopsis : String
  deriving DecidableEq, Repr, Inhabited

/-- A command line tool. -/
structure App where
  name : String
  synopsis : String
  description : String
  authors : List String
  repository : String
  /-- The first year of the copyright, or 0. -/
  since : Int
  commands : List Command
  /-- The command that runs when the arguments name none. -/
  default : String
  deriving DecidableEq, Repr, Inhabited

namespace Page

def width : Nat := 80

/-- The blanks in front of a line: four for each level, counted in a byte. -/
def indent (level : Int) : String := "".pushn ' ' (4 * level % 256).toNat

def widest (widths : List Nat) : Nat := widths.foldl max 0

def flagText (flag : Flag) : String :=
  let argument := if flag.value.takesArgument then " <" ++ flag.argument ++ ">" else ""
  if flag.shorthand ≠ "" then
    "-" ++ flag.shorthand ++ argument ++ ", --" ++ flag.name ++ argument
  else if flag.value.takesArgument ∧ flag.argument ≠ "" then
    "--" ++ flag.name ++ "=" ++ flag.argument
  else "--" ++ flag.name

/-- The widths of the columns of a page. -/
structure Columns where
  left : Nat
  usage : Nat
  deriving DecidableEq, Repr, Inhabited

/-- A table entry: a name, a description broken into lines, and a remark on the first line. -/
def entry (columns : Columns) (left usage remark : String) : String :=
  let room :=
    max (width - ((indent 2).utf8ByteSize + columns.left + 1 + 2 + remark.utf8ByteSize)) 10
  let lines := Text.wrap room usage
  let first := lines.headD ""
  let head := indent 2 ++ Text.padRight columns.left left ++ " "
  let line :=
    if remark ≠ "" then
      head ++ Text.padRight (min columns.usage room) first ++ "  " ++ remark ++ "\n"
    else head ++ first ++ "\n"
  line ++ String.join (lines.tail.map fun more =>
    indent 2 ++ "".pushn ' ' (columns.left + 1) ++ more ++ "\n")

/-- The entry of a flag, which shows the initial value of a flag that takes a text. -/
def flagEntry (columns : Columns) (flag : Flag) : String :=
  let remark :=
    if flag.initial ≠ "" ∧ flag.value.takesArgument then "|" ++ flag.initial ++ "|" else ""
  entry columns (flagText flag) flag.usage remark

/-- Sorts by name and keeps the order of equal names. -/
def sortByName {α : Type} (name : α → String) (xs : List α) : List α :=
  xs.mergeSort fun a b => decide (name a ≤ name b)

def inGroup (f : FlagSet) (name : String) : Bool :=
  f.groups.any fun g => g.entries.any fun e => name = e.onFlag || name = e.offFlag

/-- The flags outside the groups, sorted by name. -/
def options (f : FlagSet) : List Flag :=
  sortByName Flag.name (f.flags.filter fun flag => !inGroup f flag.name)

def optionColumns (flags : List Flag) : Columns where
  left := widest (flags.map fun flag => (flagText flag).utf8ByteSize)
  usage := widest (flags.map fun flag => flag.usage.utf8ByteSize)

/-- The flag forms at the head of a group; a group without entries has no lead to show. -/
def leadOf? (g : FlagGroup) : Option String := g.entries.head?.map (·.lead)

/-- The widths of the columns of options and groups together. -/
def helpColumns? (f : FlagSet) : Option Columns := do
  let base := optionColumns (options f)
  let leads ← f.groups.mapM leadOf?
  let heads := (f.groups.zip leads).map fun (g, lead) =>
    ("-" ++ lead ++ "no-<" ++ g.kind ++ ">").utf8ByteSize
  let entries := f.groups.flatMap (·.entries)
  return {
    left := widest (base.left :: heads ++ entries.map (·.name.utf8ByteSize))
    usage := widest (base.usage :: entries.map (·.usage.utf8ByteSize)) }

/-- Whether an entry is on: turned on, and not turned off. -/
def entryOn (f : FlagSet) (e : GroupEntry) : Bool :=
  e.enabled.isSome && f.isOn e.onFlag && !(e.disabled.isSome && f.isOn e.offFlag)

/-- The part of the help page about a group. -/
def groupText (f : FlagSet) (columns : Columns) (g : FlagGroup) (lead : String) : String :=
  let kind := if g.kind = "" then "flag" else g.kind
  "\n" ++ indent 1 ++ g.name ++ "\n"
    ++ indent 2 ++ Text.padRight columns.left ("-" ++ lead ++ "<" ++ kind ++ ">")
    ++ " Enable a specific " ++ kind ++ "\n"
    ++ indent 2 ++ Text.padRight columns.left ("-" ++ lead ++ "no-<" ++ kind ++ ">")
    ++ " Disable a specific " ++ kind ++ "\n"
    ++ (if g.header ≠ "" then indent 1 ++ g.header ++ "\n" else "")
    ++ String.join ((sortByName GroupEntry.name g.entries).map fun e =>
      entry columns e.name e.usage (if entryOn f e then "|x|" else "|-|"))

end Page

namespace App

/-- The years of the copyright, as of a given year. -/
def years (app : App) (year : Int) : String :=
  if app.since ≠ 0 ∧ app.since ≠ year then toString app.since ++ "-" ++ toString year
  else toString year

def commandTable (app : App) : String :=
  if app.commands.isEmpty then ""
  else
    let left (c : Command) : String := c.name ++ " " ++ c.usage
    let column := Page.widest (app.commands.map fun c => (left c).utf8ByteSize)
    "\n" ++ Page.indent 1 ++ "Commands\n"
      ++ String.join (app.commands.map fun c =>
        Page.indent 2 ++ Text.padRight column (left c) ++ " " ++ c.synopsis
          ++ (if c.name = app.default then " (default)" else "") ++ "\n")

/-- The list of the flags outside the groups. -/
def optionTable (flags : List Flag) (columns : Page.Columns) : String :=
  if flags.isEmpty then ""
  else "\n" ++ Page.indent 1 ++ "Options\n" ++ String.join (flags.map (Page.flagEntry columns))

/-- The short page that follows a complaint about the command line. -/
def usagePage (app : App) (f : FlagSet) : String :=
  let flags := Page.options f
  "Usage: " ++ app.name ++ " " ++ app.synopsis ++ "\n" ++ app.commandTable
    ++ optionTable flags (Page.optionColumns flags)
    ++ "\nRun '" ++ app.name ++ " --help' for all available options and flags.\n"

/-- The full page of help; there is none if a group has no entries. -/
def helpPage? (app : App) (f : FlagSet) (years : String) : Option String := do
  let columns ← Page.helpColumns? f
  let groups ← (Page.sortByName FlagGroup.name f.groups).mapM fun g => do
    return Page.groupText f columns g (← Page.leadOf? g)
  return "\n" ++ Page.indent 1 ++ "Copyright (c) " ++ years ++ ": "
      ++ ", ".intercalate app.authors ++ " and contributors\n"
    ++ (if app.repository ≠ "" then
          Page.indent 1 ++ "For more details refer to " ++ app.repository ++ "\n" else "")
    ++ (if app.synopsis ≠ "" then
          "\n" ++ Page.indent 1 ++ "Synopsis\n" ++ Page.indent 2 ++ app.name ++ " " ++ app.synopsis
            ++ "\n" else "")
    ++ (if app.description ≠ "" then
          "\n" ++ Page.indent 1 ++ "Description\n"
            ++ String.join ((Text.wrap (Page.width - (Page.indent 2).utf8ByteSize)
              app.description).map fun line => Page.indent 2 ++ line ++ "\n") else "")
    ++ app.commandTable
    ++ optionTable (Page.options f) columns
    ++ String.join groups

def command? (app : App) (name : String) : Option Command :=
  app.commands.find? (·.name = name)

/-- What the arguments of a tool ask for. -/
inductive Request where
  /-- A command with its arguments. -/
  | run (command : Command) (args : List String)
  /-- The page of help. -/
  | help
  /-- Nothing that the tool understands. -/
  | misuse (message : String)
  deriving DecidableEq, Repr, Inhabited

def helpFlag : Flag := Flag.ofSwitch "help" "h" false "Display this information"

/-- Reads the arguments of a tool. The first argument that is not a flag selects the command if it
names one. -/
def request (app : App) (f : FlagSet) (arguments : List String) :
    Except DefineError (FlagSet × Request) := do
  let (f, error) := (← f.define helpFlag).parse arguments
  return (f, match error with
    | some e => .misuse e.message
    | none =>
      if f.isOn "help" then .help
      else
        match f.args.head?.bind app.command?, app.command? app.default with
        | some c, _ => .run c f.args.tail
        | none, some c => .run c f.args
        | none, none => .misuse "no command given")

def complaint (app : App) (f : FlagSet) (message : String) : String :=
  message ++ "\n" ++ app.usagePage f

end App

end BlockLang

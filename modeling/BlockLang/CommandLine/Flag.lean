import BlockLang.Duration
import BlockLang.Text.Decimal
import BlockLang.Text.Quoted

/-! The flags of a command line: what a flag can hold and how it takes a value. -/

namespace BlockLang

/-- What a flag holds. -/
inductive FlagValue where
  /-- A text, which is given as an argument. -/
  | text (s : String)
  /-- A switch, which is on when it is given. -/
  | switch (on : Bool)
  /-- A counter of how often the flag is given. -/
  | count (n : Int64)
  /-- A whole number, which is given as an argument. -/
  | number (n : Int64)
  /-- A length of time, which is given as an argument. -/
  | duration (d : Duration)
  deriving DecidableEq, Repr, Inhabited

/-- Why a command line is not understood. -/
inductive FlagError where
  | emptyName
  | unknown (dashes name : String)
  | unknownShorthand (shorthand : Char)
  | needsArgument (flag : String)
  | unexpected (c : Char) (letters : String)
  | badSwitch (value : String)
  | badCount (value : String) (reason : Text.NumeralError)
  | badNumber (value : String) (reason : Text.NumeralError)
  | badDuration (value : String) (reason : DurationError)
  deriving DecidableEq, Repr, Inhabited

def FlagError.message : FlagError → String
  | emptyName => "empty flag name"
  | unknown dashes name => "unknown flag: " ++ dashes ++ name
  | unknownShorthand c => "unknown shorthand flag: -" ++ String.singleton c
  | needsArgument flag => "flag needs an argument: " ++ flag
  | unexpected c letters => "unexpected '" ++ String.singleton c ++ "' in -" ++ letters
  | badSwitch value =>
    "invalid boolean value '" ++ value ++ "': strconv.ParseBool: parsing " ++ Text.quote value
      ++ ": invalid syntax"
  | badCount value reason =>
    "invalid count '" ++ value ++ "': strconv.Atoi: parsing " ++ Text.quote value ++ ": "
      ++ reason.message
  | badNumber value reason =>
    "invalid number '" ++ value ++ "': strconv.Atoi: parsing " ++ Text.quote value ++ ": "
      ++ reason.message
  | badDuration value reason => "invalid duration '" ++ value ++ "': " ++ reason.message

namespace FlagValue

/-- The words that a switch understands. -/
def truth? (s : String) : Option Bool :=
  if ["1", "t", "T", "TRUE", "true", "True"].contains s then some true
  else if ["0", "f", "F", "FALSE", "false", "False"].contains s then some false
  else none

/-- The value after a flag was given with a text, where the empty text stands for none. -/
def set : FlagValue → String → Except FlagError FlagValue
  | text _, s => .ok (text s)
  | switch _, s =>
    if s = "" then .ok (switch true)
    else
      match truth? s with
      | some on => .ok (switch on)
      | none => .error (.badSwitch s)
  | count n, s =>
    if s = "" then .ok (count (n + 1))
    else
      match Text.readSigned s.toList with
      | .ok n => .ok (count (Int64.ofInt n))
      | .error e => .error (.badCount s e)
  | number _, s =>
    match Text.readSigned s.toList with
    | .ok n => .ok (number (Int64.ofInt n))
    | .error e => .error (.badNumber s e)
  | duration _, s =>
    match Duration.read s with
    | .ok d => .ok (duration d)
    | .error e => .error (.badDuration s e)

def takesArgument : FlagValue → Bool
  | text _ | number _ | duration _ => true
  | switch _ | count _ => false

def toText : FlagValue → String
  | text s => s
  | switch on => toString on
  | count n => toString n.toInt
  | number n => toString n.toInt
  | duration d => d.toText

end FlagValue

/-- A flag: its names, its description, what it holds, and whether it was given. -/
structure Flag where
  name : String
  /-- The one-letter name; empty if there is none. -/
  shorthand : String := ""
  usage : String := ""
  value : FlagValue
  /-- The value that the pages show as the one in force when the flag is not given. -/
  initial : String := ""
  /-- The word for what the flag takes. -/
  argument : String := ""
  given : Bool := false
  deriving DecidableEq, Repr, Inhabited

namespace Flag

def ofText (name shorthand initial usage argument : String) : Flag :=
  { name, shorthand, usage, value := .text initial, initial, argument }

def ofSwitch (name shorthand : String) (on : Bool) (usage : String) : Flag :=
  { name, shorthand, usage, value := .switch on, initial := toString on }

def ofCount (name shorthand usage : String) : Flag := { name, shorthand, usage, value := .count 0 }

/-- A flag that takes a whole number or a length of time. -/
def ofValue (name shorthand : String) (value : FlagValue) (usage argument : String) : Flag :=
  { name, shorthand, usage, value, initial := value.toText, argument }

end Flag

/-- A switch of a group, which is turned on by its name and off by its name after `no-`, both behind
the lead of the group; either form may be missing. -/
structure GroupEntry where
  name : String
  lead : String
  usage : String
  enabled : Option Bool
  disabled : Option Bool
  deriving DecidableEq, Repr, Inhabited

namespace GroupEntry

def onFlag (e : GroupEntry) : String := e.lead ++ e.name

def offFlag (e : GroupEntry) : String := e.lead ++ "no-" ++ e.name

def flags (e : GroupEntry) : List Flag :=
  (e.enabled.map fun on => Flag.ofSwitch e.onFlag "" on e.usage).toList
    ++ (e.disabled.map fun on =>
      Flag.ofSwitch e.offFlag "" on ("Disable '" ++ e.name ++ "'")).toList

end GroupEntry

/-- A family of switches that the pages list together. -/
structure FlagGroup where
  name : String
  /-- The word for one of the switches. -/
  kind : String
  header : String
  entries : List GroupEntry
  deriving DecidableEq, Repr, Inhabited

end BlockLang

import BlockLang.CommandLine.Flag

/-! A set of flags and how a command line is read by it. Each argument is first classified: what it
asks of the flags is decided by the flag names alone, and only a flag that takes a value in a
separate argument looks at the argument after it. Reading goes from left to right; an argument
that is refused ends it and leaves what was read before in place. -/

namespace BlockLang

/-- Why a flag cannot be added to a set. -/
inductive DefineError where
  | emptyName
  | redefined (name : String)
  | shorthandRedefined (shorthand : String)
  deriving DecidableEq, Repr, Inhabited

/-- How a definition error is worded. -/
def DefineError.message : DefineError → String
  | emptyName => "flag name cannot be empty"
  | redefined name => "flag redefined: " ++ name
  | shorthandRedefined s => "shorthand flag redefined: " ++ s

/-- The flags of a command line, in the order of their definition, and its other arguments. -/
structure FlagSet where
  flags : List Flag := []
  groups : List FlagGroup := []
  args : List String := []
  deriving DecidableEq, Repr, Inhabited

namespace FlagSet

def find? (f : FlagSet) (name : String) : Option Flag := f.flags.find? (·.name = name)

/-- The flag with a given letter; only ASCII letters stand for flags. -/
def findShorthand? (f : FlagSet) (c : Char) : Option Flag :=
  if c.toNat < 128 then f.flags.find? (·.shorthand = String.singleton c) else none

def define (f : FlagSet) (flag : Flag) : Except DefineError FlagSet :=
  if flag.name = "" then .error .emptyName
  else if (f.find? flag.name).isSome then .error (.redefined flag.name)
  else if flag.shorthand ≠ "" ∧ f.flags.any (·.shorthand = flag.shorthand) then
    .error (.shorthandRedefined flag.shorthand)
  else .ok { f with flags := f.flags ++ [flag] }

def defineGroup (f : FlagSet) (group : FlagGroup) : Except DefineError FlagSet := do
  let f ← (group.entries.flatMap GroupEntry.flags).foldlM define f
  return { f with groups := f.groups ++ [group] }

def isGiven (f : FlagSet) (name : String) : Bool := (f.find? name).any (·.given)

def isOn (f : FlagSet) (name : String) : Bool :=
  match f.find? name with
  | some { value := .switch on, .. } => on
  | _ => false

def textOf (f : FlagSet) (name : String) : String :=
  match f.find? name with
  | some { value := .text s, .. } => s
  | _ => ""

def numberOf (f : FlagSet) (name : String) : Int64 :=
  match f.find? name with
  | some { value := .count n, .. } => n
  | some { value := .number n, .. } => n
  | _ => 0

/-- The length of time that a flag holds. -/
def durationOf (f : FlagSet) (name : String) : Duration :=
  match f.find? name with
  | some { value := .duration d, .. } => d
  | _ => ⟨0⟩

/-- Replaces the flag of a given name. -/
def update (f : FlagSet) (name : String) (change : Flag → Flag) : FlagSet :=
  { f with flags := f.flags.map fun flag => if flag.name = name then change flag else flag }

/-- Gives a flag a text. A flag counts as given even if it refuses the text. -/
def set (f : FlagSet) (name text : String) : FlagSet × Option FlagError :=
  match f.find? name with
  | none => (f, none)
  | some flag =>
    match flag.value.set text with
    | .ok value => (f.update name fun flag => { flag with given := true, value }, none)
    | .error e => (f.update name fun flag => { flag with given := true }, some e)

/-- What an argument asks for. -/
inductive Reading where
  /-- The argument is not a flag. -/
  | positional
  /-- No argument after this one is a flag. -/
  | terminator
  /-- A flag is given once for each text; then the argument may still be refused. -/
  | sets (name : String) (texts : List String) (refusal : Option FlagError)
  /-- A flag takes the next argument; `shown` is how the flag was written. -/
  | wants (name shown : String)
  | refused (e : FlagError)
  deriving DecidableEq, Repr, Inhabited

/-- The name in front of the first equals sign and the text behind it. -/
def splitAssignment (cs : List Char) : String × Option String :=
  (String.ofList (cs.takeWhile (· ≠ '=')),
    match cs.dropWhile (· ≠ '=') with
    | [] => none
    | _ :: value => some (String.ofList value))

/-- The reading of a long flag, without its dashes. -/
def readLong (f : FlagSet) (dashes : String) (body : List Char) : Reading :=
  let (name, value) := splitAssignment body
  if name = "" then .refused .emptyName
  else
    match f.find? name with
    | none => .refused (.unknown dashes name)
    | some flag =>
      match value with
      | some value => .sets name [value] none
      | none =>
        if flag.value.takesArgument then .wants name (dashes ++ name) else .sets name [""] none

/-- The reading of a letter and what follows it in the same argument: a counter may be repeated, a
text may follow its letter directly, and what follows the letter of a switch is passed over. -/
def readShort (f : FlagSet) (letter : Char) (rest : List Char) : Reading :=
  match f.findShorthand? letter with
  | none => .refused (.unknownShorthand (if letter.toNat < 128 then letter else '\ufffd'))
  | some flag =>
    match flag.value with
    | .switch _ => .sets flag.name [""] none
    | .text _ | .number _ | .duration _ =>
      if rest.isEmpty then .wants flag.name ("-" ++ String.singleton letter)
      else .sets flag.name [String.ofList rest] none
    | .count _ =>
      .sets flag.name ("" :: (rest.takeWhile (· = letter)).map fun _ => "")
        ((rest.dropWhile (· = letter)).head?.map fun c =>
          .unexpected c (String.ofList (letter :: rest)))

/-- The reading of an argument: `--name` or `--name=value`, the same with one dash for a flag whose
name is longer than a byte, or a dash and a letter. -/
def read (f : FlagSet) (arg : String) : Reading :=
  match arg.toList with
  | ['-', '-'] => .terminator
  | '-' :: '-' :: body => f.readLong "--" body
  | '-' :: letter :: rest =>
    let (name, _) := splitAssignment (letter :: rest)
    if 1 < name.utf8ByteSize ∧ (f.find? name).isSome then f.readLong "-" (letter :: rest)
    else f.readShort letter rest
  | _ => .positional

/-- Gives a flag several texts in a row, up to the first that it refuses. -/
def setAll (f : FlagSet) (name : String) : List String → FlagSet × Option FlagError
  | [] => (f, none)
  | text :: texts =>
    match f.set name text with
    | (f, none) => f.setAll name texts
    | (f, some e) => (f, some e)

/-- Reads arguments in addition to those read before. -/
def parseMore (f : FlagSet) : List String → FlagSet × Option FlagError
  | [] => (f, none)
  | arg :: rest =>
    match f.read arg with
    | .positional => parseMore { f with args := f.args ++ [arg] } rest
    | .terminator => ({ f with args := f.args ++ rest }, none)
    | .refused e => (f, some e)
    | .sets name texts refusal =>
      match f.setAll name texts, refusal with
      | (f, some e), _ => (f, some e)
      | (f, none), some e => (f, some e)
      | (f, none), none => parseMore f rest
    | .wants name shown =>
      match rest with
      | [] => (f, some (.needsArgument shown))
      | value :: rest =>
        match f.set name value with
        | (f, some e) => (f, some e)
        | (f, none) => parseMore f rest

/-- Reads a command line. The flags keep what they hold from earlier command lines. -/
def parse (f : FlagSet) (args : List String) : FlagSet × Option FlagError :=
  parseMore { f with args := [] } args

end FlagSet

end BlockLang

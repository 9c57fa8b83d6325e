import BlockLang.Text.Pad

/-! The settings of a compilation: which warnings are given, which optional parts of the language
are recognised, and how the machine runs and reports. A settings value is a record of switches; the
switches of warnings and language parts are addressed by their names. -/

namespace BlockLang

/-- The warnings, in the order in which they are numbered. -/
inductive Warning where
  | shadow
  | constCond
  | selfAssign
  | unknownEscape
  | pedantic
  | extra
  deriving DecidableEq, Repr, Inhabited

namespace Warning

/-- Every warning, in order. -/
def all : List Warning := [shadow, constCond, selfAssign, unknownEscape, pedantic, extra]

/-- The name of a warning on the command line and in a settings file. -/
def name : Warning → String
  | shadow => "shadow"
  | constCond => "const-cond"
  | selfAssign => "self-assign"
  | unknownEscape => "unknown-escape"
  | pedantic => "pedantic"
  | extra => "extra"

def description : Warning → String
  | shadow => "Warn when a declaration shadows a variable of an enclosing block."
  | constCond => "Warn when an 'if' or 'while' condition is a boolean literal."
  | selfAssign => "Warn on assignments of a variable to itself."
  | unknownEscape => "Warn on unrecognized escape sequences in string literals."
  | pedantic => "Issue every warning, including stylistic ones."
  | extra => "Enable extra miscellaneous warnings (e.g., unknown flags or config keys)."

/-- Whether a warning is given when nothing is said about it. -/
def initially : Warning → Bool
  | constCond | pedantic => false
  | _ => true

def ofCode? (code : Int) : Option Warning := if code < 0 then none else all[code.toNat]?

def ofName? (s : String) : Option Warning := all.find? fun w => w.name == s

end Warning

/-- The optional parts of the language, in the order in which they are numbered. -/
inductive Feature where
  | comments
  | escapes
  | stringify
  | remainder
  deriving DecidableEq, Repr, Inhabited

namespace Feature

/-- Every feature, in order. -/
def all : List Feature := [comments, escapes, stringify, remainder]

/-- The name of a feature on the command line and in a settings file. -/
def name : Feature → String
  | comments => "comments"
  | escapes => "escapes"
  | stringify => "stringify"
  | remainder => "remainder"

def description : Feature → String
  | comments => "Recognize '//' line comments."
  | escapes => "Recognize '\\' escapes in string literals."
  | stringify => "Allow the '$' operator that converts a value to a string."
  | remainder => "Allow the '%' remainder operator."

def ofCode? (code : Int) : Option Feature := if code < 0 then none else all[code.toNat]?

def ofName? (s : String) : Option Feature := all.find? fun f => f.name == s

end Feature

/-- The switches of a compilation and of a run. -/
structure Settings where
  warning : Warning → Bool := Warning.initially
  feature : Feature → Bool := fun _ => true
  trace : Bool := false
  leakCheck : Bool := false
  verbosity : Int64 := 0

instance : Inhabited Settings := ⟨{}⟩

/-- Why a name or a flag says nothing about the settings. -/
inductive SettingsError where
  | unknownFeature (name : String)
  | unknownWarning (name : String)
  | unrecognizedFlag (flag : String)
  deriving DecidableEq, Repr, Inhabited

def SettingsError.message : SettingsError → String
  | .unknownFeature name => "unknown feature '" ++ name ++ "'"
  | .unknownWarning name => "unknown warning '" ++ name ++ "'"
  | .unrecognizedFlag flag => "unrecognized flag '" ++ flag ++ "'"

namespace Settings

def setWarning (s : Settings) (w : Warning) (on : Bool) : Settings :=
  { s with warning := fun w' => if w' = w then on else s.warning w' }

def setFeature (s : Settings) (f : Feature) (on : Bool) : Settings :=
  { s with feature := fun f' => if f' = f then on else s.feature f' }

/-- Sets every warning's switch but that of `pedantic`. -/
def setAllWarnings (s : Settings) (on : Bool) : Settings :=
  { s with warning := fun w => if w = .pedantic then s.warning w else on }

/-- Whether a warning is given: `pedantic` gives them all. -/
def warns (s : Settings) (w : Warning) : Bool := s.warning .pedantic || s.warning w

def setFeatureNamed (s : Settings) (name : String) (on : Bool) : Except SettingsError Settings :=
  match Feature.ofName? name with
  | some f => .ok (s.setFeature f on)
  | none => .error (.unknownFeature name)

/-- Sets the switch of the warning with a given name, where `all` stands for all but
`pedantic`. -/
def setWarningNamed (s : Settings) (name : String) (on : Bool) : Except SettingsError Settings :=
  if name = "all" then .ok (s.setAllWarnings on)
  else
    match Warning.ofName? name with
    | some w => .ok (s.setWarning w on)
    | none => .error (.unknownWarning name)

/-- Drops the text `lead` where a name begins with it. -/
def dropLead? (lead : List Char) (cs : List Char) : Option (List Char) :=
  if lead.isPrefixOf cs then some (cs.drop lead.length) else none

/-- The name and switch position that follow the letter of a flag: `no-` in front of the name
switches off. -/
def polarity (cs : List Char) : String × Bool :=
  match dropLead? "no-".toList cs with
  | some rest => (String.ofList rest, false)
  | none => (String.ofList cs, true)

/-- Obeys a single flag `-W<name>`, `-Wno-<name>`, `-F<name>` or `-Fno-<name>`; the dash may be
left out. -/
def applyFlag (s : Settings) (flag : String) : Except SettingsError Settings :=
  let body := match flag.toList with
    | '-' :: rest => rest
    | cs => cs
  match body with
  | 'W' :: rest => let (name, on) := polarity rest; s.setWarningNamed name on
  | 'F' :: rest => let (name, on) := polarity rest; s.setFeatureNamed name on
  | _ => .error (.unrecognizedFlag flag)

/-- Obeys flags one after the other up to the first that says nothing. -/
def applyFlags (s : Settings) (flags : List String) : Except SettingsError Settings :=
  flags.foldlM applyFlag s

def describeLine (name : String) (on : Bool) (description : String) : String :=
  "  - " ++ Text.padRight 16 name ++ ": " ++ toString on ++ " (" ++ description ++ ")\n"

/-- Every switch with its meaning, sorted by name. -/
def describe (s : Settings) : String :=
  let sorted {α : Type} (name : α → String) (xs : List α) : List α :=
    xs.mergeSort fun a b => decide (name a ≤ name b)
  "Warnings:\n"
    ++ String.join ((sorted Warning.name Warning.all).map fun w =>
        describeLine w.name (s.warning w) w.description)
    ++ "Features:\n"
    ++ String.join ((sorted Feature.name Feature.all).map fun f =>
        describeLine f.name (s.feature f) f.description)
    ++ "VM: trace=" ++ toString s.trace ++ " leak-check=" ++ toString s.leakCheck ++ "\n"

end Settings

end BlockLang

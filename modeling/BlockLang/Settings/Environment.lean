import BlockLang.Settings
import BlockLang.Text.Decimal

/-! Settings from the environment. A variable that is empty counts as absent. -/

namespace BlockLang

abbrev Environment := List (String × String)

namespace Environment

/-- The value of a variable that is not empty. -/
def get? (env : Environment) (name : String) : Option String :=
  (env.lookup name).filter (· ≠ "")

/-- The words that say yes, in small letters. -/
def yesWords : List String :=
  ["absolutely", "affirmative", "enable", "enabled", "positive", "t", "true", "y", "yes"]

/-- Whether a text says yes: a word in small letters, in capitals, or with a capital in front. -/
def saysYes (s : String) : Bool :=
  s = "1" || yesWords.any fun word => s = word || s = word.toUpper || s = word.capitalize

end Environment

namespace Settings

/-- Obeys the variables of an environment. -/
def applyEnvironment (s : Settings) (env : Environment) : Settings :=
  { s with
    trace := match env.get? "SWINDLE_TRACE" with
      | some v => Environment.saysYes v
      | none => s.trace
    leakCheck := match env.get? "SWINDLE_LEAK_CHECK" with
      | some v => Environment.saysYes v
      | none => s.leakCheck
    verbosity := match env.get? "SWINDLE_VERBOSE" with
      | some v =>
        match Text.readSigned v.toList with
        | .ok n => Int64.ofInt n
        | .error _ => s.verbosity
      | none => s.verbosity }

end Settings

end BlockLang

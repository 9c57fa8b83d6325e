/-! Log entries: messages of a named logger at a level of importance. -/

namespace BlockLang

/-- How important a message is, the most important first. -/
inductive LogLevel where
  | critical
  | error
  | warning
  | notice
  | info
  | debug
  deriving DecidableEq, Repr, Inhabited

namespace LogLevel

def name : LogLevel → String
  | critical => "CRIT"
  | error => "ERROR"
  | warning => "WARN"
  | notice => "NOTE"
  | info => "INFO"
  | debug => "DEBUG"

/-- The least verbosity at which messages of a level are shown. -/
def threshold : LogLevel → Int
  | critical => -3
  | error => -2
  | warning => -1
  | notice => 0
  | info => 1
  | debug => 2

end LogLevel

/-- A message of a logger. -/
structure LogEntry where
  level : LogLevel
  logger : String
  text : String
  deriving DecidableEq, Repr, Inhabited

def LogEntry.line (e : LogEntry) : String := e.level.name ++ " [" ++ e.logger ++ "] " ++ e.text

end BlockLang

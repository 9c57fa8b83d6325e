/-! What can go wrong while a program runs. A run-time error is the doing of a sound program; a
fault is the doing of a program that no compilation yields, and ends the machine at once. -/

namespace BlockLang

/-- Why a sound program fails. -/
inductive RuntimeCause where
  | divisionByZero
  | remainderByZero
  deriving DecidableEq, Repr, Inhabited

/-- A run-time error and the instruction that raised it. -/
structure RuntimeError where
  ip : Nat
  cause : RuntimeCause
  deriving DecidableEq, Repr, Inhabited

/-- How a run-time error is worded. -/
def RuntimeError.message (e : RuntimeError) : String :=
  "runtime error at instruction " ++ toString e.ip ++ ": "
    ++ match e.cause with
      | .divisionByZero => "division by zero"
      | .remainderByZero => "remainder by zero"

/-- What a program must not do. The kinds of values are given by their words. -/
inductive Fault where
  | underflow (ip : Nat)
  | wantsInt (ip : Nat) (found : String)
  | wantsBool (ip : Nat) (found : String)
  | wantsString (ip : Nat) (found : String)
  | incomparable (ip : Nat) (left right : String)
  | unmarked (label : Int)
  | unknownOp (ip : Nat) (name : String)
  | notLive (id : Int)
  | leaked (count : Nat)
  /-- A slot, string or label that is not there, or a table that cannot be made. -/
  | outOfRange
  deriving DecidableEq, Repr, Inhabited

/-- How a fault is worded; an index out of range has no wording of its own. -/
def Fault.message? : Fault → Option String
  | underflow ip => some ("vm: stack underflow at instruction " ++ toString ip)
  | wantsInt ip found =>
    some ("vm: expected int at instruction " ++ toString ip ++ ", found " ++ found)
  | wantsBool ip found =>
    some ("vm: expected bool at instruction " ++ toString ip ++ ", found " ++ found)
  | wantsString ip found =>
    some ("vm: expected string at instruction " ++ toString ip ++ ", found " ++ found)
  | incomparable ip left right =>
    some ("vm: cannot compare " ++ left ++ " with " ++ right ++ " at instruction " ++ toString ip)
  | unmarked label => some ("vm: label " ++ toString label ++ " is never marked")
  | unknownOp ip name =>
    some ("vm: unknown opcode " ++ name ++ " at instruction " ++ toString ip)
  | notLive id => some ("vm: heap record " ++ toString id ++ " is not live")
  | leaked count => some ("vm: " ++ toString count ++ " heap strings leaked")
  | outOfRange => none

end BlockLang

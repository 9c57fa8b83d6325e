/-! Decimal numerals of bounded size. Reading goes from left to right and stops at the first
character that is no digit or that carries the value past the bound, so a numeral that is both too
long and malformed is reported for whichever comes first. -/

namespace BlockLang.Text

/-- Why a text is not a numeral of the wanted range. -/
inductive NumeralError where
  | malformed
  | outOfRange
  deriving DecidableEq, Repr, Inhabited

def NumeralError.message : NumeralError → String
  | .malformed => "invalid syntax"
  | .outOfRange => "value out of range"

def decimalValue? (c : Char) : Option Nat :=
  if '0' ≤ c ∧ c ≤ '9' then some (c.toNat - '0'.toNat) else none

/-- Continues a decimal numeral whose value so far is `value`. -/
def readDigits (bound : Nat) : Nat → List Char → Except NumeralError Nat
  | value, [] => .ok value
  | value, c :: rest =>
    match decimalValue? c with
    | none => .error .malformed
    | some d =>
      if bound < value * 10 + d then .error .outOfRange else readDigits bound (value * 10 + d) rest

/-- The largest unsigned 64-bit number. -/
def maxUnsigned64 : Nat := Nat.pow 2 64 - 1

/-- An unsigned 64-bit numeral: at least one ASCII digit and nothing else. -/
def readUnsigned (cs : List Char) : Except NumeralError Nat :=
  if cs.isEmpty then .error .malformed else readDigits maxUnsigned64 0 cs

/-- A signed 64-bit numeral: an optional sign in front of an unsigned one. -/
def readSigned (cs : List Char) : Except NumeralError Int :=
  match cs with
  | '-' :: digits => do
    let n ← readUnsigned digits
    if Nat.pow 2 63 < n then .error .outOfRange else .ok (-(n : Int))
  | '+' :: digits => positive digits
  | digits => positive digits
where
  /-- A numeral that must stay below 2^63. -/
  positive (digits : List Char) : Except NumeralError Int := do
    let n ← readUnsigned digits
    if Nat.pow 2 63 ≤ n then .error .outOfRange else .ok (n : Int)

end BlockLang.Text

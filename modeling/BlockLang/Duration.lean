import BlockLang.Text.Hex
import BlockLang.Text.Pad
import BlockLang.Text.Utf8

/-! Lengths of time, written as numbers with units such as `1h30m` or `1.5s`. -/

namespace BlockLang

/-- A length of time in nanoseconds, which may be negative. -/
structure Duration where
  nanos : Int
  deriving DecidableEq, Repr, Inhabited

/-- Why a text is no length of time. -/
inductive DurationError where
  | invalid (text : String)
  | missingUnit (text : String)
  | unknownUnit (unit text : String)
  deriving DecidableEq, Repr, Inhabited

namespace Duration

/-- A text in double quotes, in which all but plain ASCII characters are written byte by byte. -/
def quote (s : String) : String :=
  let char (c : Char) : String :=
    if c.toNat < 0x20 ∨ 0x80 ≤ c.toNat then
      String.join ((Text.encode (String.singleton c)).map fun b =>
        "\\x" ++ Text.hexFixed 2 b.toNat)
    else if c = '"' ∨ c = '\\' then String.ofList ['\\', c]
    else String.singleton c
  "\"" ++ String.join (s.toList.map char) ++ "\""

def unit? : String → Option Nat
  | "ns" => some 1
  | "us" | "µs" | "μs" => some 1000
  | "ms" => some 1000000
  | "s" => some 1000000000
  | "m" => some 60000000000
  | "h" => some 3600000000000
  | _ => none

def isDigit (c : Char) : Bool := '0' ≤ c && c ≤ '9'

/-- The number that digits stand for. -/
def number (ds : List Char) : Nat := ds.foldl (fun n d => n * 10 + (d.toNat - '0'.toNat)) 0

/-- The greatest number of nanoseconds on either side of zero. -/
def limit : Nat := Nat.pow 2 63

/-- Adds up the numbers with units at the front of a text. -/
def readParts (text : String) : Nat → Nat → List Char → Except DurationError Nat
  | 0, _, _ => .error (.invalid text)
  | _, total, [] => .ok total
  | fuel + 1, total, cs => do
    let whole := cs.takeWhile isDigit
    let afterWhole := cs.dropWhile isDigit
    let (part, rest) := match afterWhole with
      | '.' :: rest => (rest.takeWhile isDigit, rest.dropWhile isDigit)
      | rest => ([], rest)
    if limit < number whole ∨ (whole.isEmpty ∧ part.isEmpty) then throw (.invalid text)
    let isUnit (c : Char) : Bool := c != '.' && !isDigit c
    let name := String.ofList (rest.takeWhile isUnit)
    if name = "" then throw (.missingUnit text)
    match unit? name with
    | none => throw (.unknownUnit name text)
    | some unit =>
      let amount := number whole * unit + number part * unit / Nat.pow 10 part.length
      if limit < amount ∨ limit < total + amount then throw (.invalid text)
      readParts text fuel (total + amount) (rest.dropWhile isUnit)

def read (text : String) : Except DurationError Duration := do
  let (negative, cs) := match text.toList with
    | '-' :: rest => (true, rest)
    | '+' :: rest => (false, rest)
    | cs => (false, cs)
  if cs = ['0'] then return ⟨0⟩
  if cs.isEmpty then throw (.invalid text)
  let total ← readParts text (cs.length + 1) 0 cs
  if negative then return ⟨-(total : Int)⟩
  else if total < limit then return ⟨total⟩
  else throw (.invalid text)

/-- A number of units and a number of places of its fraction, without zeros at the end. -/
def decimal (n places : Nat) : String :=
  let scale := Nat.pow 10 places
  let digits := (Text.padZeros places (n % scale)).toList.reverse.dropWhile (· = '0')
  toString (n / scale) ++ if n % scale = 0 then "" else "." ++ String.ofList digits.reverse

/-- A length of time in the largest units that fit. -/
def toText (d : Duration) : String :=
  let n := d.nanos.natAbs
  let sign := if d.nanos < 0 then "-" else ""
  sign ++
    if n = 0 then "0s"
    else if n < 1000 then toString n ++ "ns"
    else if n < 1000000 then decimal n 3 ++ "µs"
    else if n < 1000000000 then decimal n 6 ++ "ms"
    else
      let minutes := n / 60000000000
      let seconds := decimal (n % 60000000000) 9 ++ "s"
      if minutes = 0 then seconds
      else if minutes < 60 then toString minutes ++ "m" ++ seconds
      else toString (minutes / 60) ++ "h" ++ toString (minutes % 60) ++ "m" ++ seconds

/-- A measured time in a column: whole milliseconds, or whole microseconds below one. -/
def column (d : Duration) : String :=
  if d.nanos < 1000000 then Text.padLeft 6 (toString (d.nanos.tdiv 1000)) ++ "µs"
  else Text.padLeft 6 (toString (d.nanos.tdiv 1000000)) ++ "ms"

end Duration

/-- How a malformed length of time is worded. -/
def DurationError.message : DurationError → String
  | invalid text => "time: invalid duration " ++ Duration.quote text
  | missingUnit text => "time: missing unit in duration " ++ Duration.quote text
  | unknownUnit unit text =>
    "time: unknown unit " ++ Duration.quote unit ++ " in duration " ++ Duration.quote text

end BlockLang

import BlockLang.Json.Basic
import BlockLang.Text.Utf8

/-! Reading the data format JSON. The whole text must be one value. -/

namespace BlockLang.Json

/-- White space between the parts of a text. -/
def isSpace (c : Char) : Bool := c == ' ' || c == '\t' || c == '\r' || c == '\n'

/-- A text without the white space at its front. -/
def skip (cs : List Char) : List Char := cs.dropWhile isSpace

/-- The number of four digits of base 16. -/
def hex4? (a b c d : Char) : Option Nat := do
  return (← [a, b, c, d].mapM Text.hexValue?).foldl (fun n x => n * 16 + x) 0

/-- What an escape sequence without digits stands for. -/
def escaped? : Char → Option Char
  | '"' => some '"'
  | '\\' => some '\\'
  | '/' => some '/'
  | 'b' => some '\x08'
  | 'f' => some '\x0c'
  | 'n' => some '\n'
  | 'r' => some '\r'
  | 't' => some '\t'
  | _ => none

/-- The character of two halves of a pair. -/
def pair? (high low : Nat) : Option Char :=
  if 0xD800 ≤ high ∧ high < 0xDC00 ∧ 0xDC00 ≤ low ∧ low < 0xE000 then
    some (Char.ofNat (0x10000 + (high - 0xD800) * 0x400 + (low - 0xDC00)))
  else none

/-- The rest of a text between quotes, after `high`, the first half of a pair that may be completed.
A half that stays alone stands for a replacement character. -/
def quoted : Option Nat → List Char → Option (List Char × List Char)
  | high, '\\' :: 'u' :: a :: b :: c :: d :: rest => do
    let n ← hex4? a b c d
    match high.bind (pair? · n) with
    | some c =>
      let (cs, rest) ← quoted none rest
      return (c :: cs, rest)
    | none =>
      if 0xD800 ≤ n ∧ n < 0xE000 then
        let (cs, rest) ← quoted (some n) rest
        return (lone high ++ cs, rest)
      else
        let (cs, rest) ← quoted none rest
        return (lone high ++ Char.ofNat n :: cs, rest)
  | high, '\\' :: c :: rest => do
    let c ← escaped? c
    let (cs, rest) ← quoted none rest
    return (lone high ++ c :: cs, rest)
  | high, '"' :: rest => some (lone high, rest)
  | high, c :: rest =>
    if c.toNat < 0x20 ∨ c = '\\' then none
    else do
      let (cs, rest) ← quoted none rest
      return (lone high ++ c :: cs, rest)
  | _, [] => none
where
  /-- What a half without its other half stands for. -/
  lone (high : Option Nat) : List Char := if high.isSome then [Text.replacement] else []

def isDigit (c : Char) : Bool := '0' ≤ c && c ≤ '9'

/-- At least one digit at the front of a text. -/
def digits (cs : List Char) : Option (List Char × List Char) :=
  let ds := cs.takeWhile isDigit
  if ds.isEmpty then none else some (ds, cs.drop ds.length)

/-- The number at the front of a text. -/
def number (cs : List Char) : Option (List Char × List Char) := do
  let (sign, cs) := match cs with
    | '-' :: rest => (['-'], rest)
    | cs => ([], cs)
  let (whole, cs) ← match cs with
    | '0' :: rest => some (['0'], rest)
    | cs => digits cs
  let (part, cs) ← match cs with
    | '.' :: rest => (digits rest).map fun (ds, rest) => ('.' :: ds, rest)
    | cs => some ([], cs)
  let (power, cs) ← match cs with
    | 'e' :: rest => exponent 'e' rest
    | 'E' :: rest => exponent 'E' rest
    | cs => some ([], cs)
  return (sign ++ whole ++ part ++ power, cs)
where
  /-- The digits of an exponent, with or without a sign. -/
  exponent (mark : Char) (cs : List Char) : Option (List Char × List Char) :=
    match cs with
    | '+' :: rest => (digits rest).map fun (ds, rest) => (mark :: '+' :: ds, rest)
    | '-' :: rest => (digits rest).map fun (ds, rest) => (mark :: '-' :: ds, rest)
    | cs => (digits cs).map fun (ds, rest) => (mark :: ds, rest)

/-- Takes a word from the front of a text. -/
def word (name : String) (v : Value) (cs : List Char) : Option (Value × List Char) :=
  if name.toList.isPrefixOf cs then some (v, cs.drop name.length) else none

/-- How deep values may be nested. -/
def depthLimit : Nat := 10000

mutual

def value : Nat → Nat → List Char → Option (Value × List Char)
  | 0, _, _ => none
  | fuel + 1, depth, cs =>
    match skip cs with
    | '"' :: rest => (quoted none rest).map fun (s, rest) => (.text (String.ofList s), rest)
    | '[' :: rest =>
      if depthLimit ≤ depth then none
      else
        match skip rest with
        | ']' :: rest => some (.array [], rest)
        | rest => (items fuel (depth + 1) rest).map fun (vs, rest) => (.array vs, rest)
    | '\x7b' :: rest =>
      if depthLimit ≤ depth then none
      else
        match skip rest with
        | '\x7d' :: rest => some (.object [], rest)
        | rest => (entries fuel (depth + 1) rest).map fun (es, rest) => (.object es, rest)
    | 't' :: rest => word "true" (.boolean true) ('t' :: rest)
    | 'f' :: rest => word "false" (.boolean false) ('f' :: rest)
    | 'n' :: rest => word "null" .null ('n' :: rest)
    | cs => (number cs).map fun (ds, rest) => (.number (String.ofList ds), rest)

/-- The items of an array that is not empty. -/
def items : Nat → Nat → List Char → Option (List Value × List Char)
  | 0, _, _ => none
  | fuel + 1, depth, cs => do
    let (v, rest) ← value fuel depth cs
    match skip rest with
    | ',' :: rest =>
      let (vs, rest) ← items fuel depth rest
      return (v :: vs, rest)
    | ']' :: rest => return ([v], rest)
    | _ => none

/-- The entries of an object that is not empty. -/
def entries : Nat → Nat → List Char → Option (List (String × Value) × List Char)
  | 0, _, _ => none
  | fuel + 1, depth, cs =>
    match skip cs with
    | '"' :: rest => do
      let (name, rest) ← quoted none rest
      match skip rest with
      | ':' :: rest =>
        let (v, rest) ← value fuel depth rest
        match skip rest with
        | ',' :: rest =>
          let (es, rest) ← entries fuel depth rest
          return ((String.ofList name, v) :: es, rest)
        | '\x7d' :: rest => return ([(String.ofList name, v)], rest)
        | _ => none
      | _ => none
    | _ => none

end

def read? (bytes : List UInt8) : Option Value := do
  let cs := Text.decodeLossy bytes
  let (v, rest) ← value (2 * cs.length + 2) 0 cs
  if (skip rest).isEmpty then some v else none

end BlockLang.Json

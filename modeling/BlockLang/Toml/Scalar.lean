import BlockLang.Text.Hex
import BlockLang.Toml.Basic

/-! The values of the settings format that are written without brackets: texts, numbers, truth
values, dates and times. Each reader takes the characters from where the value begins and gives the
value and the characters after it. -/

namespace BlockLang.Toml

def isDigit (c : Char) : Bool := '0' ≤ c && c ≤ '9'

def isHex (c : Char) : Bool := (Text.hexValue? c).isSome

/-- The character with a given number, if there is one. -/
def charOf? (n : Nat) : Option Char := if n.isValidChar then some (Char.ofNat n) else none

/-- The character that digits of base 16 stand for. -/
def charOfHex? (digits : List Char) : Option Char := do
  charOf? ((← digits.mapM Text.hexValue?).foldl (fun n d => n * 16 + d) 0)

/-- What an escape sequence without digits stands for. -/
def escaped? : Char → Option Char
  | 'b' => some '\x08'
  | 't' => some '\t'
  | 'n' => some '\n'
  | 'f' => some '\x0c'
  | 'r' => some '\r'
  | 'e' => some '\x1b'
  | '"' => some '"'
  | '\\' => some '\\'
  | _ => none

/-- The rest of a text between single double quotes. -/
def basicText : List Char → Option (List Char × List Char)
  | [] => none
  | '"' :: rest => some ([], rest)
  | '\n' :: _ => none
  | '\\' :: 'x' :: a :: b :: rest => do
    let c ← charOfHex? [a, b]
    let (cs, rest) ← basicText rest
    return (c :: cs, rest)
  | '\\' :: 'u' :: a :: b :: c :: d :: rest => do
    let c ← charOfHex? [a, b, c, d]
    let (cs, rest) ← basicText rest
    return (c :: cs, rest)
  | '\\' :: 'U' :: a :: b :: c :: d :: e :: f :: g :: h :: rest => do
    let c ← charOfHex? [a, b, c, d, e, f, g, h]
    let (cs, rest) ← basicText rest
    return (c :: cs, rest)
  | '\\' :: c :: rest => do
    let c ← escaped? c
    let (cs, rest) ← basicText rest
    return (c :: cs, rest)
  | '\\' :: [] => none
  | c :: rest => do
    let (cs, rest) ← basicText rest
    return (c :: cs, rest)

/-- The rest of a text between single quotes, in which nothing is escaped. -/
def literalText : List Char → Option (List Char × List Char)
  | [] => none
  | '\'' :: rest => some ([], rest)
  | '\n' :: _ => none
  | c :: rest => do
    let (cs, rest) ← literalText rest
    return (c :: cs, rest)

/-- What a run of quotes in a text between triple quotes does: fewer than three belong to the text,
three to five end it, where those in front of the last three belong to it, and more are too many. -/
inductive QuoteRun where
  | inside
  | closes (kept : Nat)
  | tooMany
  deriving DecidableEq, Repr

/-- The effect of a run of quotes of a given length. -/
def quoteRun (n : Nat) : QuoteRun :=
  if n < 3 then .inside else if n ≤ 5 then .closes (n - 3) else .tooMany

/-- Counts the quotes at the front of a text. -/
def countQuotes (quote : Char) : List Char → Nat
  | [] => 0
  | c :: rest => if c = quote then countQuotes quote rest + 1 else 0

/-- The rest of a text between triple quotes, where `skip` characters have been dealt with. Escape
sequences count only with double quotes, and a backslash in front of a line end takes away the
white space up to the next other character. -/
def longText (quote : Char) : Nat → List Char → Option (List Char × List Char)
  | _, [] => none
  | skip + 1, _ :: rest => longText quote skip rest
  | 0, c :: rest =>
    if c = quote then
      match quoteRun (countQuotes quote rest + 1) with
      | .closes kept => some (List.replicate kept quote, rest.drop (kept + 2))
      | .tooMany => none
      | .inside => do
        let (cs, rest) ← longText quote 0 rest
        return (c :: cs, rest)
    else if c = '\\' ∧ quote = '"' then do
      let (taken, produced) ← longEscape rest
      let (cs, rest) ← longText quote taken rest
      return (produced ++ cs, rest)
    else do
      let (cs, rest) ← longText quote 0 rest
      return (c :: cs, rest)
where
  /-- How many characters an escape sequence takes after its backslash, and what it stands for. -/
  longEscape (rest : List Char) : Option (Nat × List Char) :=
    let blanks := rest.takeWhile fun c => c == ' ' || c == '\t' || c == '\n'
    if blanks.contains '\n' then some (blanks.length, [])
    else
      let digits (n : Nat) : Option (Nat × List Char) := do
        let ds := (rest.drop 1).take n
        if ds.length < n then none
        return (n + 1, [← charOfHex? ds])
      match rest with
      | 'x' :: _ => digits 2
      | 'u' :: _ => digits 4
      | 'U' :: _ => digits 8
      | c :: _ => (escaped? c).map fun c => (1, [c])
      | [] => none

/-- Whether each underscore of a number stands between digits. -/
def underscoresOk (cs : List Char) : Bool := go false cs
where
  /-- Goes on after a digit or after something else. -/
  go (afterDigit : Bool) : List Char → Bool
    | [] => afterDigit
    | c :: rest => (c != '_' || afterDigit) && go (isHex c) rest

/-- Whether a number begins with a zero that it does not need. -/
def leadingZero : List Char → Bool
  | '0' :: c :: _ => c != 'b' && c != 'o' && c != 'x'
  | '+' :: '0' :: _ :: _ | '-' :: '0' :: _ :: _ => true
  | _ => false

/-- A number without its underscores. -/
def bareNumber (cs : List Char) : List Char := cs.filter (· ≠ '_')

def digitsValue? (base : Nat) (cs : List Char) : Option Nat := do
  if cs.isEmpty then none
  let ds ← cs.mapM Text.hexValue?
  if ds.all (· < base) then some (ds.foldl (fun n d => n * base + d) 0) else none

/-- The value of a whole number of at most 64 bits. -/
def integer? (cs : List Char) : Option Int := do
  if !underscoresOk cs || leadingZero cs then none
  let n ← match bareNumber cs with
    | '0' :: 'x' :: ds => (digitsValue? 16 ds).map Int.ofNat
    | '0' :: 'o' :: ds => (digitsValue? 8 ds).map Int.ofNat
    | '0' :: 'b' :: ds => (digitsValue? 2 ds).map Int.ofNat
    | '-' :: ds => (digitsValue? 10 ds).map fun n => -(n : Int)
    | '+' :: ds => (digitsValue? 10 ds).map Int.ofNat
    | ds => (digitsValue? 10 ds).map Int.ofNat
  if -Int.pow 2 63 ≤ n ∧ n < Int.pow 2 63 then some n else none

/-- Whether a point is always followed by a digit. -/
def pointsOk : List Char → Bool
  | [] => true
  | '.' :: rest => (rest.head?.any isDigit) && pointsOk rest
  | _ :: rest => pointsOk rest

/-- The pieces of a number between its points and exponent letters. -/
def pieces (cs : List Char) : List (List Char) :=
  (go cs).filter fun piece => !piece.isEmpty
where
  /-- The pieces, some of which may be empty. -/
  go : List Char → List (List Char)
    | [] => [[]]
    | c :: rest =>
      if c == '.' || c == 'e' || c == 'E' then [] :: go rest
      else
        match go rest with
        | piece :: more => (c :: piece) :: more
        | [] => [[c]]

/-- The least number that is too large for a number with a fraction. -/
def fractionBound : Nat := Nat.pow 2 1024 - Nat.pow 2 970

/-- Whether digits times a power of ten stay below the bound. -/
def belowBound (digits : Nat) (exponent : Int) : Bool :=
  if digits = 0 ∨ exponent ≤ -400 then true
  else if 400 ≤ exponent then false
  else if 0 ≤ exponent then digits * Nat.pow 10 exponent.toNat < fractionBound
  else digits < fractionBound * Nat.pow 10 (-exponent).toNat

/-- Whether characters form a number with a fraction or an exponent that is not too large. -/
def isFraction (cs : List Char) : Bool :=
  let ps := pieces cs
  if !ps.all underscoresOk || (ps.head?.any leadingZero) || !pointsOk cs then false
  else
    let cs := bareNumber cs
    let unsigned := match cs with
      | '+' :: rest | '-' :: rest => rest
      | cs => cs
    let whole := unsigned.takeWhile isDigit
    let afterWhole := unsigned.dropWhile isDigit
    let (part, afterPart) := match afterWhole with
      | '.' :: rest => (rest.takeWhile isDigit, rest.dropWhile isDigit)
      | rest => ([], rest)
    let exponent : Option Int := match afterPart with
      | [] => some 0
      | e :: rest =>
        if e != 'e' && e != 'E' then none
        else
          match rest with
          | '-' :: ds => (digitsValue? 10 ds).map fun n => -(n : Int)
          | '+' :: ds => (digitsValue? 10 ds).map Int.ofNat
          | ds => (digitsValue? 10 ds).map Int.ofNat
    match digitsValue? 10 (whole ++ part), exponent with
    | some digits, some e => belowBound digits (e - part.length)
    | _, _ => false

def two? : List Char → Option (Nat × List Char)
  | a :: b :: rest => do return (← digitsValue? 10 [a, b], rest)
  | _ => none

def daysIn (year month : Nat) : Nat :=
  if month = 2 then
    if year % 4 = 0 ∧ (year % 100 ≠ 0 ∨ year % 400 = 0) then 29 else 28
  else if month = 4 ∨ month = 6 ∨ month = 9 ∨ month = 11 then 30
  else 31

/-- A date at the front of a text. -/
def date? : List Char → Option (List Char)
  | a :: b :: c :: d :: '-' :: rest => do
    let year ← digitsValue? 10 [a, b, c, d]
    match ← two? rest with
    | (month, '-' :: rest) =>
      let (day, rest) ← two? rest
      if 1 ≤ month ∧ month ≤ 12 ∧ 1 ≤ day ∧ day ≤ daysIn year month then some rest else none
    | _ => none
  | _ => none

/-- A time at the front of a text: hours and minutes, seconds or not, and any parts of seconds. -/
def time? (cs : List Char) : Option (List Char) := do
  match ← two? cs with
  | (hour, ':' :: rest) =>
    let (minute, rest) ← two? rest
    if hour < 24 ∧ minute < 60 then
      match rest with
      | ':' :: rest =>
        let (second, rest) ← two? rest
        if second < 60 then
          match rest with
          | '.' :: d :: more => if isDigit d then some (more.dropWhile isDigit) else some rest
          | rest => some rest
        else none
      | rest => some rest
    else none
  | _ => none

/-- The distance from universal time, or nothing, up to the end of a text. -/
def isOffset : List Char → Bool
  | [] | ['Z'] => true
  | [sign, a, b, ':', c, d] =>
    (sign == '+' || sign == '-')
      && ((digitsValue? 10 [a, b]).any (· ≤ 24)) && ((digitsValue? 10 [c, d]).any (· ≤ 60))
  | _ => false

/-- Whether characters form a date, a time, or both. Small letters and a blank count like the
letters that they stand for. -/
def isMoment (cs : List Char) : Bool :=
  let cs := cs.map fun c => if c = 't' ∨ c = ' ' then 'T' else if c = 'z' then 'Z' else c
  match date? cs with
  | some [] => true
  | some ('T' :: rest) => (time? rest).any isOffset
  | some _ => false
  | none => (time? cs).any (·.isEmpty)

/-- A number, date or time that begins with a digit. -/
def numberOrMoment (cs : List Char) : Option (Value × List Char) :=
  let span (p : Char → Bool) : List Char × List Char := (cs.takeWhile p, cs.dropWhile p)
  let based (p : Char → Bool) : Option (Value × List Char) := do
    let body := cs.drop 2
    if !(body.head?.any p) then none
    let ds := body.takeWhile fun c => p c || c == '_'
    return (.integer (← integer? (cs.take 2 ++ ds)), body.drop ds.length)
  match cs with
  | '0' :: 'x' :: _ => based isHex
  | '0' :: 'o' :: _ => based fun c => '0' ≤ c && c ≤ '7'
  | '0' :: 'b' :: _ => based fun c => c == '0' || c == '1'
  | _ =>
    match (cs.dropWhile isDigit).head? with
    | some '-' | some ':' =>
      let (body, rest) := span fun c => isDigit c || "-:Tt .Zz+".toList.contains c
      let trimmed := (body.reverse.dropWhile (· = ' ')).reverse
      if isMoment trimmed then some (.moment (String.ofList trimmed), rest) else none
    | _ => decimal cs
where
  /-- A whole number or one with a fraction, which may have a sign. -/
  decimal (cs : List Char) : Option (Value × List Char) :=
    let (sign, unsigned) := match cs with
      | '+' :: rest => (['+'], rest)
      | '-' :: rest => (['-'], rest)
      | cs => ([], cs)
    let whole := unsigned.takeWhile fun c => isDigit c || c == '_'
    let rest := unsigned.drop whole.length
    if rest.head?.any fun c => c == '.' || c == 'e' || c == 'E' then
      let body := unsigned.takeWhile fun c => isDigit c || "_.-+eE".toList.contains c
      if isFraction (sign ++ body) then
        some (.fraction (String.ofList (sign ++ body)), unsigned.drop body.length)
      else none
    else (integer? (sign ++ whole)).map fun n => (.integer n, rest)

/-- Takes a word from the front of a text. -/
def word? (word : String) (cs : List Char) : Option (List Char) :=
  if word.toList.isPrefixOf cs then some (cs.drop word.length) else none

/-- A value that is written without brackets. -/
def scalar (cs : List Char) : Option (Value × List Char) :=
  match cs with
  | '"' :: '"' :: '"' :: rest =>
    (longText '"' 0 (dropLine rest)).map fun (s, rest) => (.text (String.ofList s), rest)
  | '"' :: rest => (basicText rest).map fun (s, rest) => (.text (String.ofList s), rest)
  | '\'' :: '\'' :: '\'' :: rest =>
    (longText '\'' 0 (dropLine rest)).map fun (s, rest) => (.text (String.ofList s), rest)
  | '\'' :: rest => (literalText rest).map fun (s, rest) => (.text (String.ofList s), rest)
  | 'i' :: _ => (word? "inf" cs).map fun rest => (.fraction "inf", rest)
  | 'n' :: _ => (word? "nan" cs).map fun rest => (.fraction "nan", rest)
  | 't' :: _ => (word? "true" cs).map fun rest => (.boolean true, rest)
  | 'f' :: _ => (word? "false" cs).map fun rest => (.boolean false, rest)
  | sign :: rest =>
    if sign == '+' || sign == '-' then
      match rest with
      | 'i' :: _ =>
        (word? "inf" rest).map fun after => (.fraction (String.ofList [sign] ++ "inf"), after)
      | 'n' :: _ =>
        (word? "nan" rest).map fun after => (.fraction (String.ofList [sign] ++ "nan"), after)
      | c :: _ => if isDigit c then numberOrMoment.decimal cs else none
      | [] => none
    else if isDigit sign then numberOrMoment cs
    else none
  | [] => none
where
  /-- A text without the line end at its front. -/
  dropLine : List Char → List Char
    | '\n' :: rest => rest
    | cs => cs

end BlockLang.Toml

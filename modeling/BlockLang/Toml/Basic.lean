/-! Documents of the settings format TOML: tables of values under keys that are made of parts. -/

namespace BlockLang.Toml

abbrev Key := List String

/-- A value of a document. Of numbers with a fraction and of dates and times only the text is kept.
-/
inductive Value where
  | text (s : String)
  | integer (n : Int)
  | fraction (text : String)
  | boolean (b : Bool)
  | moment (text : String)
  | array (items : List Value)
  | table (entries : List (String × Value))
  /-- The tables of headers in double brackets, the last one first. -/
  | tables (items : List (List (String × Value)))
  deriving Repr, Inhabited

/-- A table: values by name, in the order of their appearance. -/
abbrev Table := List (String × Value)

/-- A document: its table, and the keys that its text mentions, in order. A header counts as a key
of its own, and a key counts with all its parts. -/
structure Document where
  root : Table
  keys : List Key
  deriving Repr, Inhabited

/-- A character of a key part without quotes. -/
def isBare (c : Char) : Bool :=
  ('a' ≤ c && c ≤ 'z') || ('A' ≤ c && c ≤ 'Z') || ('0' ≤ c && c ≤ '9') || c == '_' || c == '-'

def escapeChar (c : Char) : String :=
  match c with
  | '"' => "\\\""
  | '\\' => "\\\\"
  | '\x08' => "\\b"
  | '\t' => "\\t"
  | '\n' => "\\n"
  | '\x0c' => "\\f"
  | '\r' => "\\r"
  | c =>
    if c.toNat < 0x20 ∨ c.toNat = 0x7F then
      "\\u00" ++ String.ofList [hex (c.toNat / 16), hex (c.toNat % 16)]
    else String.singleton c
where
  /-- A digit of base 16. -/
  hex (n : Nat) : Char := Nat.digitChar n

/-- A part of a key, in quotes if it needs them. -/
def partText (part : String) : String :=
  if part ≠ "" ∧ part.toList.all isBare then part
  else "\"" ++ String.join (part.toList.map escapeChar) ++ "\""

def keyText (key : Key) : String := ".".intercalate (key.map partText)

namespace Table

/-- Puts a value under a name, in the place of an older one. -/
def put (t : Table) (name : String) (v : Value) : Table :=
  if t.any (·.1 = name) then t.map fun (n, old) => if n = name then (n, v) else (n, old)
  else t ++ [(name, v)]

/-- Changes the table that a key leads to from a table. On the way, headers in double brackets lead
to the last of their tables; a value that is no table leads nowhere. -/
def changeAt (change : Table → Option Table) : Key → Table → Option Table
  | [], t => change t
  | part :: rest, t => do
    match ← t.lookup part with
    | .table inner => return put t part (.table (← changeAt change rest inner))
    | .tables (last :: before) =>
      return put t part (.tables ((← changeAt change rest last) :: before))
    | _ => none

def tableAt? : Key → Table → Option Table
  | [], t => some t
  | part :: rest, t => do
    match ← t.lookup part with
    | .table inner => tableAt? rest inner
    | .tables (last :: _) => tableAt? rest last
    | _ => none

end Table

end BlockLang.Toml

import BlockLang.Text.Utf8
import BlockLang.Toml.Scalar

/-! Reading a document of the settings format. A name may be given a value only once, but a table
that was only implied by a longer key may still be given its own header. -/

namespace BlockLang.Toml

/-- The document so far: its table and keys, the keys of implied tables, the keys of arrays, and the
key of the table that is being filled. -/
structure Draft where
  root : Table := []
  /-- The keys in order, the last one first. -/
  keys : List Key := []
  implied : List Key := []
  arrays : List Key := []
  context : Key := []

namespace Draft

def imply (d : Draft) (key : Key) : Draft := { d with implied := key :: d.implied }

/-- Marks a table as no longer implied. -/
def settle (d : Draft) (key : Key) : Draft := { d with implied := d.implied.filter (· ≠ key) }

def noteArray (d : Draft) (key : Key) (isArray : Bool) : Draft :=
  { d with arrays := if isArray then key :: d.arrays else d.arrays.filter (· ≠ key) }

/-- Gives a name of the current table a value. An implied table stays as it is, and an implied array
is replaced. -/
def set (d : Draft) (name : String) (v : Value) : Option Draft := do
  let t ← Table.tableAt? d.context d.root
  let key := d.context ++ [name]
  let place (d : Draft) : Option Draft := do
    let root ← Table.changeAt (fun t => some (Table.put t name v)) d.context d.root
    return { d with root }
  if (t.lookup name).isNone then place d
  else if !d.implied.contains key then none
  else if d.arrays.contains key then place (d.settle key)
  else return d.settle key

/-- Makes the tables in front of the last part of a key, as far as they are missing. -/
def openParents (d : Draft) (above : Key) : Key → Option Draft
  | [] => some d
  | part :: rest => do
    let t ← Table.tableAt? above d.root
    let key := above ++ [part]
    if (t.lookup part).isSome then
      let _ ← Table.tableAt? key d.root
      openParents d key rest
    else
      let root ← Table.changeAt (fun t => some (Table.put t part (.table []))) above d.root
      openParents { d.imply key with root } key rest

/-- Adds a table to the tables under a name. -/
def pushTable (name : String) (t : Table) : Option Table :=
  match t.lookup name with
  | none => some (Table.put t name (.tables [[]]))
  | some (.tables items) => some (Table.put t name (.tables ([] :: items)))
  | some _ => none

/-- Makes the table of a key the current one. -/
def enter (d : Draft) (key : Key) (repeated : Bool) : Option Draft := do
  let d ← d.openParents [] key.dropLast
  let d := { d with context := key.dropLast }
  let name := key.getLastD ""
  let d ← if repeated then do
      let root ← Table.changeAt (pushTable name) d.context d.root
      pure { d with root }
    else d.set name (.table [])
  return { d with context := key }

/-- Makes the implied table of a key the current one. -/
def enterImplied (d : Draft) (key : Key) : Option Draft := (d.imply key).enter key false

/-- Makes the implied tables of the parts in front of a name the current ones, one by one. -/
def enterParts (d : Draft) : Key → Option Draft
  | [] => some d
  | part :: rest => do enterParts (← d.enterImplied (d.context ++ [part])) rest

def mention (d : Draft) (key : Key) : Draft := { d with keys := key :: d.keys }

end Draft

/-- White space within a line. -/
def isSpace (c : Char) : Bool := c == ' ' || c == '\t'

/-- A text without the white space at its front. -/
def skipSpace (cs : List Char) : List Char := cs.dropWhile isSpace

def keyPart (cs : List Char) : Option (String × List Char) :=
  match cs with
  | '"' :: rest => (basicText rest).map fun (s, rest) => (String.ofList s, rest)
  | '\'' :: rest => (literalText rest).map fun (s, rest) => (String.ofList s, rest)
  | _ =>
    let bare := cs.takeWhile isBare
    if bare.isEmpty then none else some (String.ofList bare, cs.drop bare.length)

/-- The parts of a key at the front of a text, with points between them. -/
def keyParts : Nat → List Char → Option (Key × List Char)
  | 0, _ => none
  | fuel + 1, cs => do
    let (part, rest) ← keyPart (skipSpace cs)
    match skipSpace rest with
    | '.' :: rest =>
      let (more, rest) ← keyParts fuel rest
      return (part :: more, rest)
    | rest => return ([part], rest)

/-- A text without the white space, line ends and comments at its front. -/
def skipLines : Nat → List Char → List Char
  | 0, cs => cs
  | fuel + 1, cs =>
    match cs.dropWhile fun c => isSpace c || c == '\n' with
    | '#' :: rest => skipLines fuel (rest.dropWhile (· ≠ '\n'))
    | cs => cs

/-- Puts a value into a table under a key, making tables on the way. -/
def nest : Key → Value → Table → Option Table
  | [], _, _ => none
  | [name], v, t => some (Table.put t name v)
  | part :: rest, v, t =>
    match t.lookup part with
    | none => do return Table.put t part (.table (← nest rest v []))
    | some (.table inner) => do return Table.put t part (.table (← nest rest v inner))
    | some _ => none

mutual

/-- The value at the front of a text. `name` is the name in the current table that it is for, and
`inArray` says whether it is an item of an array. -/
def value : Nat → String → Bool → Draft → List Char → Option (Value × Draft × List Char)
  | 0, _, _, _, _ => none
  | fuel + 1, name, inArray, d, cs =>
    match skipSpace cs with
    | '[' :: rest => do
      let (items, d, rest) ← items fuel name (d.noteArray (d.context ++ [name]) true) rest
      return (.array items, d, rest)
    | '\x7b' :: rest => do
      let outer := d.context
      let key := d.context ++ [name]
      let d ← (d.imply key).enter key inArray
      let (t, d, rest) ← pairs fuel key [] d rest
      return (.table t, { d with context := outer }, rest)
    | cs => do
      let (v, rest) ← scalar cs
      return (v, d, rest)

/-- The items of an array up to its closing bracket. -/
def items : Nat → String → Draft → List Char → Option (List Value × Draft × List Char)
  | 0, _, _, _ => none
  | fuel + 1, name, d, cs =>
    match skipLines (cs.length + 1) cs with
    | ']' :: rest => some ([], d, rest)
    | cs => do
      let (v, d, rest) ← value fuel name true d cs
      match skipLines (rest.length + 1) rest with
      | ',' :: rest =>
        let (more, d, rest) ← items fuel name d rest
        return (v :: more, d, rest)
      | ']' :: rest => return ([v], d, rest)
      | _ => none

/-- The entries of a table in braces up to its closing brace; `key` is the table's own key. -/
def pairs : Nat → Key → Table → Draft → List Char → Option (Table × Draft × List Char)
  | 0, _, _, _, _ => none
  | fuel + 1, key, t, d, cs =>
    match skipLines (cs.length + 1) cs with
    | '\x7d' :: rest => some (t, d, rest)
    | cs => do
      let (path, v, d, rest) ← entry fuel d cs
      let t ← nest path v t
      let d := { d with context := key }
      match skipLines (rest.length + 1) rest with
      | ',' :: rest => pairs fuel key t d rest
      | '\x7d' :: rest => return (t, d, rest)
      | _ => none

/-- A key with its value, which is put into the current table. -/
def entry : Nat → Draft → List Char → Option (Key × Value × Draft × List Char)
  | 0, _, _ => none
  | fuel + 1, d, cs => do
    let (path, rest) ← keyParts (cs.length + 1) cs
    let name := path.getLastD ""
    match rest with
    | '=' :: rest =>
      let d ← d.enterParts path.dropLast
      let key := d.context ++ [name]
      let (v, d, rest) ← value fuel name false (d.mention key) rest
      let d ← d.set name v
      let isArray := match v with
        | .array _ => true
        | _ => false
      return (path, v, d.noteArray key isArray, rest)
    | _ => none

end

/-- The line end, comment or end of text that must follow an entry or a header. -/
def endOfLine (cs : List Char) : Option (List Char) :=
  match skipSpace cs with
  | [] => some []
  | '\n' :: rest => some rest
  | '#' :: rest => some (rest.dropWhile (· ≠ '\n'))
  | _ => none

/-- A header behind its opening brackets, which makes its table the current one. -/
def header (d : Draft) (repeated : Bool) (cs : List Char) : Option (Draft × List Char) := do
  let (key, rest) ← keyParts (cs.length + 1) cs
  let rest ← match repeated, rest with
    | true, ']' :: ']' :: rest => some rest
    | false, ']' :: rest => some rest
    | _, _ => none
  let d ← d.enter key repeated
  return ((d.noteArray key false).mention key, rest)

/-- Reads entries and headers to the end of a text. -/
def lines : Nat → Draft → List Char → Option Draft
  | 0, _, _ => none
  | fuel + 1, d, cs =>
    match skipLines (cs.length + 1) cs with
    | [] => some d
    | '[' :: '[' :: rest => do
      let (d, rest) ← header d true rest
      lines fuel d (← endOfLine rest)
    | '[' :: rest => do
      let (d, rest) ← header d false rest
      lines fuel d (← endOfLine rest)
    | cs => do
      let outer := d.context
      let (_, _, d, rest) ← entry (2 * cs.length + 2) d cs
      lines fuel { d with context := outer } (← endOfLine rest)

/-- The characters of a text whose lines end in a newline, with or without a carriage return. No
other control characters are allowed but tabs. -/
def plainChars : List Char → Option (List Char)
  | [] => some []
  | '\r' :: '\n' :: rest => (plainChars rest).map ('\n' :: ·)
  | c :: rest =>
    if (c.toNat < 0x20 ∧ c ≠ '\t' ∧ c ≠ '\n') ∨ c.toNat = 0x7F then none
    else (plainChars rest).map (c :: ·)

/-- The bytes of a text without the mark of a byte order. -/
def dropMark : List UInt8 → List UInt8
  | 0xFF :: 0xFE :: rest | 0xFE :: 0xFF :: rest | 0xEF :: 0xBB :: 0xBF :: rest => rest
  | bytes => bytes

def read? (bytes : List UInt8) : Option Document := do
  let text ← Text.decode? (dropMark bytes)
  let cs ← plainChars text.toList
  let d ← lines (cs.length + 1) {} cs
  return ⟨d.root, d.keys.reverse⟩

end BlockLang.Toml

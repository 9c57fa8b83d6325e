import BlockLang.Text.Hex

/-! Values of the data format JSON and how they are written: one entry on a line, indented by two
blanks for each level. -/

namespace BlockLang.Json

/-- A value. Of a number only the text is kept. -/
inductive Value where
  | null
  | boolean (b : Bool)
  | number (text : String)
  | text (s : String)
  | array (items : List Value)
  | object (entries : List (String × Value))
  deriving Repr, Inhabited

def ofInt (n : Int) : Value := .number (toString n)

/-- A character between quotes. Besides what the format asks for, the characters with a meaning in
hypertext and the separators of lines and paragraphs are written by their numbers. -/
def writeChar (c : Char) : String :=
  match c with
  | '"' => "\\\""
  | '\\' => "\\\\"
  | '\x08' => "\\b"
  | '\x0c' => "\\f"
  | '\n' => "\\n"
  | '\r' => "\\r"
  | '\t' => "\\t"
  | c =>
    if c.toNat < 0x20 ∨ c = '<' ∨ c = '>' ∨ c = '&' ∨ c.toNat = 0x2028 ∨ c.toNat = 0x2029 then
      "\\u" ++ Text.hexFixed 4 c.toNat
    else String.singleton c

def writeText (s : String) : String := "\"" ++ String.join (s.toList.map writeChar) ++ "\""

def newLine (level : Nat) : String := "\n" ++ "".pushn ' ' (2 * level)

/-- Entries between brackets, one on a line; none take no line. -/
def between (opening closing : String) (level : Nat) : List String → String
  | [] => opening ++ closing
  | entries =>
    opening ++ newLine (level + 1) ++ ("," ++ newLine (level + 1)).intercalate entries
      ++ newLine level ++ closing

mutual

def write (level : Nat) : Value → String
  | .null => "null"
  | .boolean b => toString b
  | .number text => text
  | .text s => writeText s
  | .array items => between "[" "]" level (writeItems (level + 1) items)
  | .object entries => between "\x7b" "\x7d" level (writeEntries (level + 1) entries)

def writeItems (level : Nat) : List Value → List String
  | [] => []
  | v :: rest => write level v :: writeItems level rest

def writeEntries (level : Nat) : List (String × Value) → List String
  | [] => []
  | (name, v) :: rest => (writeText name ++ ": " ++ write level v) :: writeEntries level rest

end

def Value.toText (v : Value) : String := write 0 v

end BlockLang.Json

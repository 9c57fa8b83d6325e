import BlockLang.Text.Hex
import BlockLang.Text.Printable

/-! Quoted text: a text between double quotes in which the quote, the backslash and everything
that is not printable is escaped, so that a quoted text is always a single line. -/

namespace BlockLang.Text

/-- The letter that follows the backslash for the code points with an escape of their own. -/
def shortEscape? (c : Char) : Option Char :=
  match c.toNat with
  | 0x07 => some 'a'
  | 0x08 => some 'b'
  | 0x0C => some 'f'
  | 0x0A => some 'n'
  | 0x0D => some 'r'
  | 0x09 => some 't'
  | 0x0B => some 'v'
  | 0x5C => some '\\'
  | 0x22 => some '"'
  | _ => none

/-- A code point inside quotes: a short escape, itself, or its number in two, four or eight
hexadecimal digits. -/
def quoteChar (c : Char) : List Char :=
  match shortEscape? c with
  | some letter => ['\\', letter]
  | none =>
    if isPrintable c then [c]
    else if c.toNat < 0x80 then '\\' :: 'x' :: hexDigits 2 c.toNat
    else if c.toNat < 0x10000 then '\\' :: 'u' :: hexDigits 4 c.toNat
    else '\\' :: 'U' :: hexDigits 8 c.toNat

def quote (s : String) : String :=
  String.ofList ('"' :: s.toList.flatMap quoteChar ++ ['"'])

end BlockLang.Text

/-! The lines of a document and their indentation. A tab reaches to the next multiple of four
columns, so what a line begins with is measured in columns, and a tab may be cut in the middle: the
part of it that is left counts as blanks. -/

namespace BlockLang.Markdown

/-- White space of ASCII, line ends among it. -/
def isSpace (c : Char) : Bool :=
  c = ' ' || c = '\t' || c = '\n' || c = '\x0b' || c = '\x0c' || c = '\r'

/-- Only white space, or nothing. -/
def isBlankText (cs : List Char) : Bool := cs.all isSpace

/-- A text without the white space at its end. -/
def trimEnd (cs : List Char) : List Char := (cs.reverse.dropWhile isSpace).reverse

/-- A text without the white space at both its ends. -/
def trimBoth (cs : List Char) : List Char := trimEnd (cs.dropWhile isSpace)

/-- The lines of a text, each with its line end; the last may lack it. -/
def splitLines : List Char → List (List Char)
  | [] => []
  | c :: cs =>
    if c = '\n' then [c] :: splitLines cs
    else match splitLines cs with
      | [] => [[c]]
      | line :: lines => (c :: line) :: lines

/-- What is left of a line: the columns of a cut tab that still stand in front, the column at which
the text starts, and the text with its line end. -/
structure Line where
  pad : Nat
  column : Nat
  text : List Char

/-- The columns from one column to the next tab stop. -/
def tabWidth (column : Nat) : Nat := 4 - column % 4

/-- The columns that the blanks in front of a text take. -/
def blankWidth (column : Nat) : List Char → Nat
  | ' ' :: cs => 1 + blankWidth (column + 1) cs
  | '\t' :: cs => tabWidth column + blankWidth (column + tabWidth column) cs
  | _ => 0

/-- A line without so many columns of the blanks in front, or without all of them if they are
fewer. -/
def dropBlanks : Nat → Nat → List Char → Line
  | n + 1, column, ' ' :: cs => dropBlanks n (column + 1) cs
  | n + 1, column, '\t' :: cs =>
    let width := tabWidth column
    if n + 1 < width then ⟨width - (n + 1), column + width, cs⟩
    else dropBlanks (n + 1 - width) (column + width) cs
  | _, column, cs => ⟨0, column, cs⟩

namespace Line

def ofText (cs : List Char) : Line := ⟨0, 0, cs⟩

def indent (line : Line) : Nat := line.pad + blankWidth line.column line.text

/-- The line with so many columns of indentation less, or with none. -/
def dropIndent (line : Line) (n : Nat) : Line :=
  if n ≤ line.pad then { line with pad := line.pad - n }
  else dropBlanks (n - line.pad) line.column line.text

/-- The line from its first character on that is no blank. -/
def bare (line : Line) : Line := line.dropIndent line.indent

/-- The line without its first characters, none of which is a tab. -/
def advance (line : Line) (n : Nat) : Line := ⟨0, line.column + n, line.text.drop n⟩

/-- The text of the line, the columns of a cut tab as blanks. -/
def content (line : Line) : List Char := List.replicate line.pad ' ' ++ line.text

/-- A line that holds only white space. -/
def isBlank (line : Line) : Bool := isBlankText line.text

/-- The end of a line that is blank from here on. -/
def toEnd (line : Line) : Line :=
  ⟨0, line.column, if line.text.getLast? = some '\n' then ['\n'] else []⟩

end Line

end BlockLang.Markdown

import BlockLang.Markdown.Tag
import BlockLang.Text.Fold
import BlockLang.Text.Punctuation

/-! Labels in square brackets, the targets and titles of links, and the paragraphs that give a label
a target. -/

namespace BlockLang.Markdown

/-- The text up to an unescaped closing mark and the rest behind it. An unescaped opening mark on
the way, where it differs from the closing one, spoils it. -/
def upTo? (opening closing : Char) : List Char → Option (List Char × List Char)
  | [] => none
  | '\\' :: c :: cs =>
    if Text.isAsciiPunctuation c then
      (upTo? opening closing cs).map fun (text, rest) => ('\\' :: c :: text, rest)
    else (upTo? opening closing (c :: cs)).map fun (text, rest) => ('\\' :: text, rest)
  | c :: cs =>
    if c = closing then some ([], cs)
    else if c = opening then none
    else (upTo? opening closing cs).map fun (text, rest) => (c :: text, rest)

/-- A label with every run of white space as one blank. -/
def squeeze : List Char → List Char
  | [] => []
  | c :: cs =>
    if isSpace c then
      match cs with
      | d :: _ => if isSpace d then squeeze cs else ' ' :: squeeze cs
      | [] => [' ']
    else c :: squeeze cs

/-- What two labels share that mean the same: neither white space nor capital letters tell labels
apart. -/
def labelKey (label : List Char) : List Char := squeeze ((trimBoth label).map Text.foldCase)

/-- The rest behind a target without brackets, which white space or a closing parenthesis of its
surroundings ends. -/
def plainTarget (depth : Nat) : List Char → List Char
  | [] => []
  | '\\' :: c :: cs =>
    if Text.isAsciiPunctuation c then plainTarget depth cs else plainTarget depth (c :: cs)
  | c :: cs =>
    if c = '(' then plainTarget (depth + 1) cs
    else if c = ')' then
      match depth with
      | 0 => c :: cs
      | depth + 1 => plainTarget depth cs
    else if isSpace c then c :: cs
    else plainTarget depth cs

/-- The rest behind a target in angle brackets, of which the first has been read. -/
def bracketTarget? : List Char → Option (List Char)
  | [] => none
  | '\\' :: c :: cs =>
    if Text.isAsciiPunctuation c then bracketTarget? cs else bracketTarget? (c :: cs)
  | c :: cs => if c = '>' then some cs else if c = '\n' then none else bracketTarget? cs

/-- The rest behind the target of a link. -/
def target? : List Char → Option (List Char)
  | '<' :: cs => bracketTarget? cs
  | cs =>
    let rest := plainTarget 0 cs
    if rest.length = cs.length then none else some rest

/-- The rest behind the title of a link. -/
def title? : List Char → Option (List Char)
  | '"' :: cs => (upTo? '"' '"' cs).map (·.2)
  | '\x27' :: cs => (upTo? '\x27' '\x27' cs).map (·.2)
  | '(' :: cs => (upTo? '(' ')' cs).map (·.2)
  | _ => none

/-- The rest behind the line end, if only white space stands in front of it. -/
def blankToLineEnd? (cs : List Char) : Option (List Char) :=
  let (line, rest) := cs.span (· ≠ '\n')
  if isBlankText line then some (rest.drop 1) else none

/-- The key of the label that the front of a paragraph gives a target, and the rest behind it. -/
def definition? (cs : List Char) : Option (List Char × List Char) := do
  let rest ← after? ['['] (cs.dropWhile isSpace)
  let (label, rest) ← upTo? '[' ']' rest
  guard (!isBlankText label)
  let rest ← after? [':'] rest
  let behind ← target? (rest.dropWhile isSpace)
  let titled : Option (List Char) := do
    let front := behind.dropWhile isSpace
    guard (front.length < behind.length)
    blankToLineEnd? (← title? front)
  let rest ← titled <|> blankToLineEnd? behind
  return (labelKey label, rest)

/-- The keys of the labels that the front of a paragraph gives targets, and the text that is left of
it; a paragraph holds fewer of them than characters. -/
def definitions : Nat → List Char → List (List Char) × List Char
  | 0, cs => ([], cs)
  | n + 1, cs =>
    match definition? cs with
    | some (key, rest) =>
      let (keys, rest) := definitions n rest
      (key :: keys, rest)
    | none => ([], cs)

end BlockLang.Markdown

import BlockLang.Markdown.Inline

/-! The headings and the fenced blocks of a document, in order. Block quotes and list items may
surround them; paragraphs, indented code, blocks of markup, breaks and the definitions of labels
stand between them and are read only as far as it takes to tell them apart. -/

namespace BlockLang.Markdown

/-- A fenced block: its language, empty if none is given, the number of its first line of content,
or one if it has none, and its content. -/
structure Fence where
  language : String
  line : Nat
  content : String

/-- What marks out a part of a document. -/
inductive Landmark
  | heading (text : String)
  | fence (fence : Fence)

/-- The line that opens a fenced block: the marks it is fenced with, its indentation and its
language. -/
structure FenceStart where
  mark : Char
  length : Nat
  indent : Nat
  language : List Char

namespace FenceStart

/-- Reads the line that opens a fenced block. What follows the marks may hold no backquote if the
marks are backquotes. -/
def ofLine? (line : Line) : Option FenceStart := do
  let text := line.bare.text
  let mark ← text.head?
  guard (mark = '\x60' || mark = '~')
  let (marks, rest) := text.span (· = mark)
  guard (3 ≤ marks.length)
  let info := if 1 < rest.length then trimBoth rest else []
  guard (mark != '\x60' || !info.contains mark)
  return ⟨mark, marks.length, line.indent, info.takeWhile (· ≠ ' ')⟩

/-- The line that closes the block: at least as many of its marks, and nothing else. -/
def isClosedBy (start : FenceStart) (line : Line) : Bool :=
  let (marks, rest) := line.bare.text.span (· = start.mark)
  line.indent < 4 && start.length ≤ marks.length && isBlankText rest

/-- What a line adds to the content: the line without the indentation that the block itself has. A
blank line with less than that stays as it is. -/
def contentOf (start : FenceStart) (line : Line) : List Char :=
  let text :=
    if start.indent ≤ line.indent then (line.dropIndent start.indent).content
    else if line.bare.text = [] || line.bare.text = ['\n'] then line.content
    else line.bare.text
  if text.isEmpty || text.getLast? = some '\n' then text else text ++ ['\n']

end FenceStart

/-- A list item's marker: the number it gives if it is ordered, its width with the indentation in
front, and the line behind it. -/
structure Marker where
  number : Option Nat
  width : Nat
  behind : Line

namespace Marker

/-- Reads the marker at the front of a line: a bullet, or at most nine digits with a point or a
parenthesis, and a blank or the line end behind it. -/
def ofLine? (line : Line) : Option Marker := do
  let bare := line.bare
  let (digits, rest) := bare.text.span Char.isDigit
  let (number, length) ← match digits, rest with
    | [], c :: _ => if c = '-' || c = '+' || c = '*' then some (none, 1) else none
    | digits, c :: _ =>
      if digits.length ≤ 9 && (c = '.' || c = ')') then
        some (some (digits.foldl (fun n d => 10 * n + (d.toNat - '0'.toNat)) 0), digits.length + 1)
      else none
    | _, [] => none
  let behind := bare.advance length
  guard (behind.text = [] || behind.text.head? = some '\n' || 0 < behind.indent)
  return ⟨number, line.indent + length, behind⟩

/-- A marker with nothing behind it on its line. -/
def isAlone (marker : Marker) : Bool := marker.behind.isBlank

/-- The blanks between the marker and its content: one, if nothing or indented code follows. -/
def gap (marker : Marker) : Nat :=
  if marker.isAlone || 4 < marker.behind.indent then 1 else marker.behind.indent

end Marker

/-- The text of a heading that number signs begin: the line without them and without those that
close it, which a blank sets off. -/
def headingLine? (line : Line) : Option (List Char) := do
  let (marks, rest) := line.bare.text.span (· = '#')
  guard (1 ≤ marks.length && marks.length ≤ 6)
  guard (rest.isEmpty || rest.head?.any isSpace)
  let body := trimBoth rest
  let inner := (body.reverse.dropWhile (· = '#')).reverse
  return if inner.isEmpty then [] else if inner.getLast?.any isSpace then inner else body

/-- The line under a heading: equals signs or hyphens only. -/
def isUnderline (line : Line) : Bool :=
  let text := trimEnd line.bare.text
  line.indent < 4 && !text.isEmpty && (text.all (· = '=') || text.all (· = '-'))

/-- A break: three stars, hyphens or underscores at least, with blanks between them. -/
def isBreak (line : Line) : Bool :=
  let marks := line.text.filter (!isSpace ·)
  line.indent < 4 && 3 ≤ marks.length &&
    (marks.all (· = '*') || marks.all (· = '-') || marks.all (· = '_'))

/-- The line behind the mark of a block quote and the blank that may follow it. -/
def quoted? (line : Line) : Option Line :=
  if line.indent < 4 && line.bare.text.head? = some '>' then
    some ((line.bare.advance 1).dropIndent 1)
  else none

/-- What surrounds a line: a block quote, or a list item with the indentation of its content, which
is empty as long as only its marker has been read. -/
inductive Container
  | quote
  | item (indent : Nat) (isEmpty : Bool)

def Container.fill : Container → Container
  | .quote => .quote
  | .item indent _ => .item indent false

/-- The containers that go on with a line, the outermost first, and what is left of the line. A
quote goes on with its mark, an item with its indentation or with a blank line, unless it is empty.
-/
def goingOn : List Container → Line → List Container × Line
  | [], line => ([], line)
  | .quote :: inner, line =>
    match quoted? line with
    | some line =>
      let (kept, line) := goingOn inner line
      (.quote :: kept, line)
    | none => ([], line)
  | .item indent isEmpty :: inner, line =>
    if line.isBlank then
      if isEmpty then ([], line)
      else
        let (kept, line) := goingOn inner line.toEnd
        (.item indent isEmpty :: kept, line)
    else if indent ≤ line.indent then
      let (kept, line) := goingOn inner (line.dropIndent indent)
      (.item indent isEmpty :: kept, line)
    else ([], line)

/-- What is being read inside the containers; lines are the latest first. -/
inductive Leaf
  | nothing
  | paragraph (lines : List (List Char))
  | fence (start : FenceStart) (line : Nat) (lines : List (List Char))
  | indented
  | markup (stop : Tag.BlockEnd)

/-- A heading in its source, or a fenced block. -/
inductive Mark
  | heading (source : List Char)
  | fence (fence : Fence)

/-- A document as far as it has been read: the containers, the outermost first, what is being read
in the innermost, the headings and fenced blocks, the latest first, and the labels that have
targets. -/
structure Document where
  containers : List Container
  leaf : Leaf
  marks : List Mark
  labels : List (List Char)

namespace Document

/-- The labels and the rest of a paragraph, given its lines, the latest first. -/
def paragraphRest (lines : List (List Char)) : List (List Char) × List Char :=
  let text := trimEnd lines.reverse.flatten
  definitions text.length text

/-- The document with nothing being read in the innermost container. -/
def close (d : Document) : Document :=
  match d.leaf with
  | .paragraph lines =>
    { d with leaf := .nothing, labels := d.labels ++ (paragraphRest lines).1 }
  | .fence start line lines =>
    let fence : Fence :=
      ⟨String.ofList start.language, line, String.ofList lines.reverse.flatten⟩
    { d with leaf := .nothing, marks := .fence fence :: d.marks }
  | _ => { d with leaf := .nothing }

/-- Reads something new inside some containers. -/
def start (d : Document) (containers : List Container) (leaf : Leaf) : Document :=
  { d.close with containers := containers.map Container.fill, leaf }

/-- The document with one more heading inside some containers. -/
def addHeading (d : Document) (containers : List Container) (source : List Char) : Document :=
  let d := d.start containers .nothing
  { d with marks := .heading source :: d.marks }

def inParagraph (d : Document) : Bool := d.leaf matches .paragraph _

/-- Reads the rest of a line that is text: it goes on with the paragraph that is being read,
whatever containers the line leaves out, or begins one. -/
def addText (d : Document) (containers : List Container) (line : Line) : Document :=
  let text := line.text.dropWhile isSpace
  match d.leaf with
  | .paragraph lines => { d with leaf := .paragraph (text :: lines) }
  | _ => d.start containers (.paragraph [text])

/-- Reads the rest of a line that begins something other than a container, if it does. -/
def startLeaf? (d : Document) (containers : List Container) (line : Line) : Option Document :=
  match FenceStart.ofLine? line with
  | some fence => some (d.start containers (.fence fence 1 []))
  | none =>
  match headingLine? line with
  | some source => some (d.addHeading containers source)
  | none =>
  match line.bare.text with
  | '<' :: rest =>
    (Tag.block? d.inParagraph rest).map fun stop =>
      let ended := match stop with
        | .word _ => stop.isIn line.text
        | .blankLine => false
      d.start containers (if ended then .nothing else .markup stop)
  | _ => none

/-- A marker may begin a list inside a paragraph only if something stands behind it and it gives no
number but one. -/
def admits (isInside : Bool) (marker : Marker) : Bool :=
  !isInside || (!marker.isAlone && marker.number.all (· = 1))

/-- Reads the rest of a line of which the containers that go on have been taken off. Containers that
it begins are read first, and there are fewer of them than characters. -/
def openRest : Nat → Document → List Container → Line → Document
  | 0, d, _, _ => d
  | n + 1, d, containers, line =>
    let isInside := d.inParagraph && containers.length = d.containers.length
    if line.isBlank then { d.close with containers }
    else if 4 ≤ line.indent then
      if d.inParagraph then d.addText containers line else d.start containers .indented
    else if isInside && isUnderline line then
      match d.leaf with
      | .paragraph lines =>
        let (_, source) := paragraphRest lines
        if source.isEmpty then openRest n d.close containers line
        else d.addHeading containers source
      | _ => d
    else if isBreak line then d.start containers .nothing
    else
      match (Marker.ofLine? line).filter (admits isInside) with
      | some marker =>
        let d := d.start containers .nothing
        let inner := d.containers ++ [.item (marker.width + marker.gap) marker.isAlone]
        if marker.isAlone then { d with containers := inner }
        else openRest n { d with containers := inner } inner (marker.behind.dropIndent marker.gap)
      | none =>
      match quoted? line with
      | some rest =>
        let d := d.start containers .nothing
        let inner := d.containers ++ [.quote]
        openRest n { d with containers := inner } inner rest
      | none => (d.startLeaf? containers line).getD (d.addText containers line)

/-- Reads the rest of a line as part of what is being read in the innermost container, if it goes on
or ends with that line. -/
def goOn? (d : Document) (number : Nat) (line : Line) : Option Document :=
  match d.leaf with
  | .fence start first lines =>
    if start.isClosedBy line then some d.close
    else
      let first := if lines.isEmpty then number else first
      some { d with leaf := .fence start first (start.contentOf line :: lines) }
  | .markup stop => some (if stop.isIn line.text then d.close else d)
  | .indented => if line.isBlank || 4 ≤ line.indent then some d else none
  | .paragraph _ | .nothing => none

def addLine (d : Document) (number : Nat) (text : List Char) : Document :=
  let (kept, line) := goingOn d.containers (.ofText text)
  match if kept.length = d.containers.length then d.goOn? number line else none with
  | some d => d
  | none => openRest (text.length + 1) d kept line

/-- Reads lines, the first of which has the given number. -/
def addLines : Nat → Document → List (List Char) → Document
  | _, d, [] => d
  | number, d, line :: lines => addLines (number + 1) (d.addLine number line) lines

end Document

/-- The headings and the fenced blocks of a document, in order. -/
def landmarks (source : String) : List Landmark :=
  let d := (Document.addLines 1 ⟨[], .nothing, [], []⟩ (splitLines source.toList)).close
  d.marks.reverse.map fun
    | .heading source => .heading (String.ofList (shownText d.labels source))
    | .fence fence => .fence fence

end BlockLang.Markdown

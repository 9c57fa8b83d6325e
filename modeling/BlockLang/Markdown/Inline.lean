import BlockLang.Markdown.Reference
import BlockLang.Text.Blank

/-! The text that a heading shows. Marks of emphasis, the brackets, targets and titles of links, the
quotes of code, addresses and tags are not part of it; all else stands as it was written, escapes
and named characters too, and lines follow each other without a gap. -/

namespace BlockLang.Markdown

/-- A row of equal marks that may begin or end emphasis, with the marks that are still unused. -/
structure MarkRun where
  mark : Char
  length : Nat
  unused : Nat
  opens : Bool
  closes : Bool

/-- Whether a row of marks may begin and may end emphasis, by the characters on both its sides. -/
def MarkRun.ofSides (mark : Char) (length : Nat) (before after : Char) : MarkRun :=
  let leans (near far : Char) : Bool :=
    !Text.isBlank near &&
      (!Text.isPunctuation near || Text.isBlank far || Text.isPunctuation far)
  let left := leans after before
  let right := leans before after
  if mark = '_' then
    ⟨mark, length, length, left && (!right || Text.isPunctuation before),
      right && (!left || Text.isPunctuation after)⟩
  else ⟨mark, length, length, left, right⟩

/-- The marks that an opening and a closing row use up together: two for strong emphasis, else one.
Rows that could do both pair only if their lengths do not add up to a multiple of three, or both are
one. -/
def MarkRun.pairing (opener closer : MarkRun) : Nat :=
  if (opener.closes || closer.opens) && (opener.length + closer.length) % 3 = 0 &&
      closer.length % 3 ≠ 0 then 0
  else if 2 ≤ opener.unused && 2 ≤ closer.unused then 2
  else 1

/-- A part of a heading while it is read. -/
inductive Part
  /-- Text that is shown, and whether a link is part of it. -/
  | shown (text : List Char) (hasLink : Bool)
  /-- Marks that may still begin emphasis if they are open. -/
  | marks (run : MarkRun) (isOpen : Bool)
  /-- A bracket that may begin a link or an image, with the source behind it. -/
  | bracket (isImage : Bool) (behind : List Char)

namespace Part

/-- The text of a part whose marks and brackets found no partner. -/
def text : Part → List Char
  | .shown text _ => text
  | .marks run _ => List.replicate run.unused run.mark
  | .bracket true _ => ['!', '[']
  | .bracket false _ => ['[']

def hasLink : Part → Bool
  | .shown _ hasLink => hasLink
  | _ => false

/-- Uses up marks of the nearest earlier row that a closing row pairs with, and the number of marks
used; the parts are the latest first. Rows in between can no longer begin anything. -/
def pairWith (closer : MarkRun) : List Part → Option (Nat × List Part)
  | [] => none
  | .marks run isOpen :: earlier =>
    let n := run.pairing closer
    if isOpen && run.mark = closer.mark && run.opens && 0 < n then
      some (n, .marks { run with unused := run.unused - n } (n < run.unused) :: earlier)
    else (pairWith closer earlier).map fun (n, earlier) => (n, .marks run false :: earlier)
  | part :: earlier => (pairWith closer earlier).map fun (n, earlier) => (n, part :: earlier)

/-- Pairs a row with earlier rows for as long as it has unused marks and finds a partner. Every
round uses up one of its marks at least. -/
def pairAll : Nat → MarkRun → List Part → List Part
  | 0, run, earlier => .marks run true :: earlier
  | rounds + 1, run, earlier =>
    match if run.closes && 0 < run.unused then pairWith run earlier else none with
    | some (n, earlier) => pairAll rounds { run with unused := run.unused - n } earlier
    | none => .marks run true :: earlier

/-- Pairs the rows of marks among some parts, the earliest first; the result has the latest first.
-/
def pairRuns (earlier : List Part) : List Part → List Part
  | [] => earlier
  | .marks run _ :: parts => pairRuns (pairAll run.length run earlier) parts
  | part :: parts => pairRuns (part :: earlier) parts

/-- The text that some parts show, the latest first. -/
def render (parts : List Part) : List Char :=
  (pairRuns [] parts.reverse).reverse.flatMap text

end Part

/-- The text between equally long rows of backquotes, of which the first has been read, and the
rest. The row that is being read has the given length so far. -/
def codeSpan? (length : Nat) (row : Nat) : List Char → Option (List Char × List Char)
  | [] => if row = length then some ([], []) else none
  | c :: cs =>
    if c = '\x60' then codeSpan? length (row + 1) cs
    else if row = length then some ([], c :: cs)
    else (codeSpan? length 0 cs).map fun (code, rest) =>
      (List.replicate row '\x60' ++ c :: code, rest)

/-- Code without one blank or line end at each of its ends, if it has one at both and holds more
than white space. -/
def codeText (code : List Char) : List Char :=
  let isGap (c : Option Char) : Bool := c = some ' ' || c = some '\n'
  if !isBlankText code && isGap code.head? && isGap code.getLast? then (code.drop 1).dropLast
  else code

/-- The rest behind the target and title of a link in parentheses, of which the first has been
read. -/
def linkTail? (cs : List Char) : Option (List Char) :=
  match cs.dropWhile isSpace with
  | ')' :: rest => some rest
  | front => do
    let rest ← target? front
    match rest.dropWhile isSpace with
    | ')' :: rest => some rest
    | front =>
      let rest ← title? front
      after? [')'] (rest.dropWhile isSpace)

/-- The rest behind a link whose text has been read with its closing bracket: a target in
parentheses, a label in brackets that has a target, or nothing if the text itself is such a label.
With a label that has no target it is no link. -/
def linkEnd? (labels : List (List Char)) (label cs : List Char) : Option (List Char) :=
  let known (label : List Char) : Bool := labels.contains (labelKey label)
  let short := if known label then some cs else none
  match cs with
  | '(' :: rest => linkTail? rest <|> short
  | '[' :: rest =>
    match upTo? '[' ']' rest with
    | some (other, rest) =>
      if known (if isBlankText other then label else other) then some rest else none
    | none => short
  | _ => short

/-- The part of a heading that has been read: the character in front, the text since the last part,
backwards, and the parts, the latest first. -/
structure Progress where
  previous : Char
  current : List Char
  parts : List Part

namespace Progress

/-- The parts with the text that is being read as the latest. -/
def flush (r : Progress) : List Part := .shown r.current.reverse false :: r.parts

def push (r : Progress) (part : Part) (previous : Char) : Progress :=
  ⟨previous, [], part :: r.flush⟩

/-- Reads a character that stands for itself. -/
def keep (r : Progress) (c : Char) : Progress := { r with previous := c, current := c :: r.current }

/-- The text that is being read without the white space at its end. -/
def trim (r : Progress) : Progress := { r with current := r.current.dropWhile isSpace }

/-- The parts since the latest bracket, that bracket, and the parts before it. -/
def splitAtBracket : List Part → Option (List Part × (Bool × List Char) × List Part)
  | [] => none
  | .bracket isImage behind :: earlier => some ([], (isImage, behind), earlier)
  | part :: earlier =>
    (splitAtBracket earlier).map fun (inner, bracket, outer) => (part :: inner, bracket, outer)

/-- Reads a closing bracket, behind which a text follows. The text since the latest bracket becomes
a link or an image if what follows allows it and no link stands within another; otherwise both
brackets stand for themselves. -/
def close (labels : List (List Char)) (r : Progress) (cs : List Char) : Progress × List Char :=
  match splitAtBracket r.flush with
  | none => (r.keep ']', cs)
  | some (inner, (isImage, behind), outer) =>
    let linked := inner.any Part.hasLink
    let label := behind.take (behind.length - cs.length - 1)
    match if !isImage && linked then none else linkEnd? labels label cs with
    | some rest =>
      (⟨if rest.length = cs.length then ']' else ')', [],
        .shown (Part.render inner) (linked || !isImage) :: outer⟩, rest)
    | none =>
      let plain := Part.shown (Part.bracket isImage []).text false
      (⟨']', [']'], inner ++ plain :: outer⟩, cs)

/-- Reads the part of a heading that comes next, and the source behind it. -/
def step (labels : List (List Char)) (r : Progress) (c : Char) (cs : List Char) :
    Progress × List Char :=
  if c = '\n' then (⟨c, [], r.trim.flush⟩, cs)
  else if c = '\\' then
    match cs with
    | '\n' :: rest => if r.previous = '\\' then (r.keep c, cs) else (⟨'\n', [], r.flush⟩, rest)
    | d :: rest => if Text.isAsciiPunctuation d then ((r.keep c).keep d, rest) else (r.keep c, cs)
    | [] => (r.keep c, cs)
  else if c = '\x60' then
    let (row, rest) := (c :: cs).span (· = c)
    match codeSpan? row.length 0 rest with
    | some (code, rest) => (r.push (.shown (codeText code) false) c, rest)
    | none => (r.push (.shown row false) c, rest)
  else if c = '<' then
    match Address.inline? cs <|> Tag.inline? cs with
    | some rest => (r.push (.shown [] false) '>', rest)
    | none => (r.keep c, cs)
  else if c = '[' then (r.push (.bracket false cs) c, cs)
  else if c = ']' then r.close labels cs
  else if c = '*' || c = '_' then
    let (row, rest) := (c :: cs).span (· = c)
    (r.push (.marks (.ofSides c row.length r.previous (rest.head?.getD ' ')) true) c, rest)
  else
    match c, cs with
    | '!', '[' :: rest => (r.push (.bracket true rest) '[', rest)
    | _, _ => (r.keep c, cs)

/-- Reads a heading to its end; every step reads one character at least. -/
def run (labels : List (List Char)) : Nat → Progress → List Char → Progress
  | 0, r, _ => r
  | _ + 1, r, [] => r
  | n + 1, r, c :: cs =>
    let (r, cs) := r.step labels c cs
    run labels n r cs

end Progress

/-- The text that a heading shows, where some labels have targets. -/
def shownText (labels : List (List Char)) (source : List Char) : List Char :=
  Part.render (Progress.run labels source.length ⟨'\n', [], []⟩ source).trim.flush

end BlockLang.Markdown

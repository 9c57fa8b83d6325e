import BlockLang.Markdown.Line

/-! Markup in angle brackets: tags with their attributes, comments, instructions and declarations
inside a text, addresses, and the lines at which a block of markup begins and ends. -/

namespace BlockLang.Markdown

/-- The rest of a text behind a word that it begins with. -/
def after? : List Char → List Char → Option (List Char)
  | [], cs => some cs
  | _ :: _, [] => none
  | w :: word, c :: cs => if w = c then after? word cs else none

/-- The rest of a text behind the first place where a word stands. -/
def afterFirst? (word : List Char) : List Char → Option (List Char)
  | [] => after? word []
  | c :: cs => after? word (c :: cs) <|> afterFirst? word cs

/-- A text in which a word stands somewhere. -/
def holds (cs word : List Char) : Bool := (afterFirst? word cs).isSome

namespace Tag

/-- The white space that may stand inside a tag. -/
def isGap (c : Char) : Bool := c = ' ' || c = '\t' || c = '\n' || c = '\r'

/-- The name at the front of a text, which a letter begins, and the rest. -/
def name? (cs : List Char) : Option (List Char × List Char) :=
  match cs with
  | c :: _ =>
    if c.isAlpha then some (cs.span fun c => c.isAlphanum || c = '-') else none
  | [] => none

/-- The rest behind the value of an attribute: a quoted text, or characters that need no quotes. -/
def value? : List Char → Option (List Char)
  | '"' :: cs => afterFirst? ['"'] cs
  | '\x27' :: cs => afterFirst? ['\x27'] cs
  | cs =>
    let isPlain (c : Char) : Bool :=
      c.toNat > 0x20 && !("\"'=<>\x60".toList.contains c)
    match cs with
    | c :: _ => if isPlain c then some (cs.dropWhile isPlain) else none
    | [] => none

/-- The rest behind one attribute with the white space in front of it. -/
def attribute? (cs : List Char) : Option (List Char) :=
  match cs.span isGap with
  | ([], _) => none
  | (_, c :: rest) =>
    if c.isAlpha || c = '_' || c = ':' then
      let rest := rest.dropWhile fun c => c.isAlphanum || c = ':' || c = '.' || c = '_' || c = '-'
      match rest.dropWhile isGap with
      | '=' :: behind => some ((value? (behind.dropWhile isGap)).getD rest)
      | _ => some rest
    else none
  | (_, []) => none

/-- The rest behind all attributes at the front of a text; a text has fewer of them than
characters. -/
def attributes : Nat → List Char → List Char
  | 0, cs => cs
  | n + 1, cs =>
    match attribute? cs with
    | some rest => attributes n rest
    | none => cs

/-- The rest behind an opening tag, of which the bracket has been read. -/
def opening? (cs : List Char) : Option (List Char) := do
  let (_, rest) ← name? cs
  match (attributes rest.length rest).dropWhile isGap with
  | '>' :: rest | '/' :: '>' :: rest => some rest
  | _ => none

/-- The rest behind a closing tag, of which the bracket and the stroke have been read. -/
def closing? (cs : List Char) : Option (List Char) := do
  let (_, rest) ← name? cs
  match rest.dropWhile isGap with
  | '>' :: rest => some rest
  | _ => none

/-- The rest behind a piece of markup, of which the bracket has been read. -/
def inline? : List Char → Option (List Char)
  | '/' :: cs => closing? cs
  | '!' :: '-' :: '-' :: '>' :: cs => some cs
  | '!' :: '-' :: '-' :: '-' :: '>' :: cs => some cs
  | '!' :: '-' :: '-' :: cs => afterFirst? "-->".toList cs
  | '?' :: cs => afterFirst? "?>".toList cs
  | '!' :: c :: cs =>
    if c.isUpper then afterFirst? ['>'] cs
    else (after? "[CDATA[".toList (c :: cs)).bind (afterFirst? "]]>".toList)
  | cs => opening? cs

/-- The names of the tags that begin a block wherever they stand at the front of a line. -/
def blockNames : List String :=
  ["address", "article", "aside", "base", "basefont", "blockquote", "body", "caption", "center",
   "col", "colgroup", "dd", "details", "dialog", "dir", "div", "dl", "dt", "fieldset",
   "figcaption", "figure", "footer", "form", "frame", "frameset", "h1", "h2", "h3", "h4", "h5",
   "h6", "head", "header", "hr", "html", "iframe", "legend", "li", "link", "main", "menu",
   "menuitem", "meta", "nav", "noframes", "ol", "optgroup", "option", "p", "param", "search",
   "section", "summary", "table", "tbody", "td", "tfoot", "th", "thead", "title", "tr", "track",
   "ul"]

/-- The names of the tags between which a text is taken as it stands. -/
def rawNames : List String := ["script", "pre", "style", "textarea"]

/-- Where a block of markup ends: with the line that holds one of some words, written in small
letters, or before a blank line. -/
inductive BlockEnd
  | word (words : List (List Char))
  | blankLine

/-- The line that holds the end of a block of markup. -/
def BlockEnd.isIn (stop : BlockEnd) (line : List Char) : Bool :=
  match stop with
  | .word words => words.any (holds (line.map Char.toLower))
  | .blankLine => isBlankText line

/-- A line that is at its end but for white space of one kind. -/
def isLineEnd (cs : List Char) : Bool := cs = [] || cs = ['\n'] || cs = ['\r', '\n']

/-- The end of the block that a tag with text between its ends begins. -/
def rawBlock? (cs : List Char) : Option BlockEnd := do
  let (name, rest) ← name? cs
  guard (rawNames.contains (String.ofList (name.map Char.toLower)))
  match rest with
  | [] | '>' :: _ | '/' :: '>' :: _ => pure ()
  | c :: _ => guard (isSpace c)
  return .word (rawNames.map fun name => ("</" ++ name ++ ">").toList)

/-- The end of the block that a tag begins that stands alone on its line. Only one of the names that
begin a block may do so inside a paragraph. -/
def loneBlock? (inParagraph : Bool) (cs : List Char) : Option BlockEnd := do
  let (closes, cs) := match cs with
    | '/' :: cs => (true, cs)
    | cs => (false, cs)
  let (name, rest) ← name? (if closes then cs.dropWhile (· = ' ') else cs)
  let behind := attributes rest.length rest
  let tail ← match behind.dropWhile (· = ' ') with
    | '>' :: rest | '/' :: '>' :: rest => some rest
    | _ => none
  guard (isLineEnd (tail.dropWhile (· = ' ')))
  let name := String.ofList (name.map Char.toLower)
  guard (blockNames.contains name ||
    (name != "script" && name != "style" && name != "pre" && !inParagraph &&
      !(closes && behind.length != rest.length)))
  return .blankLine

/-- The end of the block that a tag with one of the names of blocks begins. -/
def namedBlock? (cs : List Char) : Option BlockEnd := do
  let (name, rest) ← name? (match cs with
    | '/' :: cs => cs.dropWhile (· = ' ')
    | cs => cs)
  guard (blockNames.contains (String.ofList (name.map Char.toLower)))
  match rest with
  | ' ' :: _ | '>' :: _ | '/' :: '>' :: _ => pure ()
  | rest => guard (isLineEnd rest)
  return .blankLine

/-- The end of the block that a line begins, of which the bracket has been read. -/
def block? (inParagraph : Bool) (cs : List Char) : Option BlockEnd :=
  rawBlock? cs <|>
  match cs with
  | '!' :: '-' :: '-' :: _ => some (.word ["-->".toList])
  | '?' :: _ => some (.word ["?>".toList])
  | '!' :: c :: cs =>
    if c.isUpper then some (.word [[ '>']])
    else (after? "[CDATA[".toList (c :: cs)).map fun _ => .word ["]]>".toList]
  | cs => loneBlock? inParagraph cs <|> namedBlock? cs

end Tag

namespace Address

/-- A character of a name in front of the sign of a mail address. -/
def isNameChar (c : Char) : Bool :=
  c.isAlphanum || ".!#$%&'*+/=?^_\x60\x7b|\x7d~-".toList.contains c

/-- A part of a mail address between two points: at most 63 letters, digits and hyphens, a hyphen
neither first nor last. -/
def isHostPart (cs : List Char) : Bool :=
  0 < cs.length && cs.length ≤ 63 && cs.all (fun c => c.isAlphanum || c = '-') &&
    cs.head? != some '-' && cs.getLast? != some '-'

/-- The parts of a text between its points. -/
def hostParts : List Char → List (List Char)
  | [] => [[]]
  | c :: cs =>
    match hostParts cs with
    | part :: parts => if c = '.' then [] :: part :: parts else (c :: part) :: parts
    | [] => [[c]]

/-- The rest behind a mail address with its closing bracket. -/
def mail? (cs : List Char) : Option (List Char) := do
  let (name, rest) := cs.span isNameChar
  guard (!name.isEmpty)
  match rest with
  | '@' :: rest =>
    let (host, rest) := rest.span fun c => c.isAlphanum || c = '-' || c = '.'
    guard ((hostParts host).all isHostPart)
    after? [ '>'] rest
  | _ => none

/-- The rest behind an address that a scheme begins, with its closing bracket. -/
def link? (cs : List Char) : Option (List Char) := do
  let (scheme, rest) := cs.span fun c => c.isAlphanum || c = '+' || c = '.' || c = '-'
  guard ((scheme.head?.any Char.isAlpha) && 1 < scheme.length && scheme.length ≤ 32)
  match rest with
  | ':' :: rest =>
    after? [ '>'] (rest.dropWhile fun c =>
      c.toNat > 0x20 && c.toNat != 0x7f && c != '<' && c != '>')
  | _ => none

/-- The rest behind an address in angle brackets, of which the first has been read. -/
def inline? (cs : List Char) : Option (List Char) := mail? cs <|> link? cs

end Address

end BlockLang.Markdown

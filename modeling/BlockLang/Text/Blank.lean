import BlockLang.Text.Ranges

/-! White space, and the words of a text that it separates. -/

namespace BlockLang.Text

def blankRanges : List (Nat × Nat) :=
  [(0x9, 0xD), (0x20, 0x20), (0x85, 0x85), (0xA0, 0xA0), (0x1680, 0x1680), (0x2000, 0x200A),
   (0x2028, 0x2029), (0x202F, 0x202F), (0x205F, 0x205F), (0x3000, 0x3000)]

/-- White space of any kind. -/
def isBlank (c : Char) : Bool := inRanges blankRanges c.toNat

/-- Puts a word in front of others unless it is empty. -/
def consWord (word : List Char) (words : List (List Char)) : List (List Char) :=
  if word.isEmpty then words else word :: words

/-- The word that a text begins with, possibly empty, and the words after it. -/
def splitWords : List Char → List Char × List (List Char)
  | [] => ([], [])
  | c :: cs =>
    let (word, words) := splitWords cs
    if isBlank c then ([], consWord word words) else (c :: word, words)

/-- The words of a text: its longest parts without white space. -/
def words (s : String) : List String :=
  let (word, words) := splitWords s.toList
  (consWord word words).map String.ofList

/-- A text without the white space at its ends. -/
def trim (cs : List Char) : List Char :=
  ((cs.dropWhile isBlank).reverse.dropWhile isBlank).reverse

end BlockLang.Text

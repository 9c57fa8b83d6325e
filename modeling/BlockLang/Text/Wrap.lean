import BlockLang.Text.Blank

/-! Breaking a text into lines of a bounded number of bytes. Words are never broken, so a word that
is wider than the bound stands on a line of its own. -/

namespace BlockLang.Text

/-- The lines of some words, where `line` is the line that is being filled: a word goes onto it
unless the line would grow wider than `width` bytes. -/
def fill (width : Nat) : String → List String → List String
  | line, [] => [line]
  | line, word :: rest =>
    if line.utf8ByteSize + word.utf8ByteSize + 1 > width then line :: fill width word rest
    else fill width (line ++ " " ++ word) rest

/-- The lines of a text; the width 0 stands for no bound and leaves the text as it is. -/
def wrap (width : Nat) (s : String) : List String :=
  if width = 0 then [s]
  else
    match words s with
    | [] => []
    | word :: rest => fill width word rest

end BlockLang.Text

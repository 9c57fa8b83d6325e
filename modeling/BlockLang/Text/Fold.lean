/-! Comparing names without regard to capital and small letters. -/

namespace BlockLang.Text

/-- The small letter of an ASCII letter; the long s and the sign of the unit kelvin count as the
letters that they look like. -/
def foldCase (c : Char) : Char :=
  if 'A' ≤ c ∧ c ≤ 'Z' then Char.ofNat (c.toNat + 32)
  else if c = '\u017f' then 's'
  else if c = '\u212a' then 'k'
  else c

/-- The one of some names that a text means: the same name, or else the first that differs only in
capital and small letters. -/
def nameOf? (names : List String) (s : String) : Option String :=
  names.find? (· = s) <|> names.find? fun name =>
    name.toList.map foldCase = s.toList.map foldCase

end BlockLang.Text

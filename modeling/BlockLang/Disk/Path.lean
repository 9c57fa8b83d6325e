/-! Paths as texts. A path is a list of parts between slashes; it is absolute if it begins with a
slash. Everything here works on the text alone and never looks at what is stored under a path. -/

namespace BlockLang.Path

/-- The parts of a path between its slashes; some may be empty. -/
def parts (path : String) : List String := (path.toList.splitOn '/').map String.ofList

/-- Whether a path begins at the root. -/
def isAbsolute (path : String) : Bool := path.startsWith "/"

/-- Takes one more part, where the parts so far are listed with the last one first: empty parts and
single dots say nothing, and two dots take back the part before them. -/
def takePart (rooted : Bool) (taken : List String) (part : String) : List String :=
  if part = "" ∨ part = "." then taken
  else if part = ".." then
    match taken with
    | [] => if rooted then [] else [".."]
    | last :: rest => if last = ".." then ".." :: taken else rest
  else part :: taken

/-- The shortest list of parts that leads to the same place. -/
def normalize (rooted : Bool) (ps : List String) : List String :=
  (ps.foldl (takePart rooted) []).reverse

def ofParts (ps : List String) : String := "/" ++ "/".intercalate ps

/-- The shortest path that leads to the same place. -/
def clean (path : String) : String :=
  let ps := normalize (isAbsolute path) (parts path)
  if isAbsolute path then ofParts ps else if ps.isEmpty then "." else "/".intercalate ps

/-- The path of `name` as seen from `folder`. -/
def join (folder name : String) : String :=
  if folder = "" then if name = "" then "" else clean name
  else if name = "" then clean folder
  else clean (folder ++ "/" ++ name)

/-- The folder of a path: what stands in front of its last slash. -/
def folder (path : String) : String :=
  clean (String.ofList (path.toList.reverse.dropWhile (· ≠ '/')).reverse)

/-- The last part of a path that is not empty. -/
def base (path : String) : String :=
  if path = "" then "."
  else
    match (parts path).reverse.find? (· ≠ "") with
    | some part => part
    | none => "/"

/-- The parts of a path from the root on, where a path that is not absolute begins at `cwd`. -/
def absolute (cwd : List String) (path : String) : List String :=
  normalize true (if isAbsolute path then parts path else cwd ++ parts path)

end BlockLang.Path

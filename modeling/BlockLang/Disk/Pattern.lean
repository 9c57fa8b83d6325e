import BlockLang.Disk.Basic
import BlockLang.Text.Utf8

/-! Patterns for the names on a disk. A star stands for any bytes but a slash, a question mark for
one character, and brackets for a choice of characters; a backslash takes away the meaning of the
character after it. -/

namespace BlockLang

/-- A part of a pattern that stands for one byte or one character. -/
inductive Piece where
  | byte (b : UInt8)
  | any
  /-- One of some characters, given as ranges, or none of them. -/
  | choice (negated : Bool) (ranges : List (Nat × Nat))
  deriving DecidableEq, Repr, Inhabited

/-- A run of pieces, with or without a star in front. -/
structure Chunk where
  star : Bool
  pieces : List Piece
  deriving DecidableEq, Repr, Inhabited

abbrev Pattern := List Chunk

namespace Pattern

/-- The first character of some bytes and the bytes after it; a byte that is out of place counts as
a replacement character. -/
def takeChar : List UInt8 → Option (Nat × List UInt8)
  | [] => none
  | b :: rest =>
    match Text.firstChar? (b :: rest) with
    | some (c, width) => some (c.toNat, rest.drop (width - 1))
    | none => some (Text.replacement.toNat, rest)

/-- An end of a range in brackets. Something must follow it. -/
def rangeEnd (bs : List UInt8) : Option (Nat × List UInt8) := do
  let bs ← match bs with
    | [] | 45 :: _ | 93 :: _ => none
    | 92 :: rest => some rest
    | bs => some bs
  let (c, _) ← Text.firstChar? bs
  let (_, rest) ← takeChar bs
  if rest.isEmpty then none else some (c.toNat, rest)

/-- The ranges of a choice up to its closing bracket; there must be at least one. -/
def ranges : Nat → List (Nat × Nat) → List UInt8 → Option (List (Nat × Nat) × List UInt8)
  | 0, _, _ => none
  | fuel + 1, found, bs =>
    match bs, found with
    | 93 :: rest, _ :: _ => some (found.reverse, rest)
    | bs, found => do
      let (lo, rest) ← rangeEnd bs
      match rest with
      | 45 :: rest =>
        let (hi, rest) ← rangeEnd rest
        ranges fuel ((lo, hi) :: found) rest
      | rest => ranges fuel ((lo, lo) :: found) rest

/-- The pieces of a run without stars. -/
def pieces : Nat → List UInt8 → Option (List Piece)
  | _, [] => some []
  | 0, _ => none
  | fuel + 1, 91 :: rest => do
    let (negated, rest) := match rest with
      | 94 :: rest => (true, rest)
      | rest => (false, rest)
    let (found, rest) ← ranges (rest.length + 1) [] rest
    return .choice negated found :: (← pieces fuel rest)
  | fuel + 1, 63 :: rest => do return .any :: (← pieces fuel rest)
  | fuel + 1, 92 :: rest =>
    match rest with
    | [] => none
    | b :: rest => do return .byte b :: (← pieces fuel rest)
  | fuel + 1, b :: rest => do return .byte b :: (← pieces fuel rest)

/-- Cuts a pattern at the first star outside brackets. -/
def cut : Bool → List UInt8 → List UInt8 × List UInt8
  | _, [] => ([], [])
  | inside, b :: rest =>
    if b = 42 ∧ !inside then ([], b :: rest)
    else if b = 92 then
      match rest with
      | [] => ([b], [])
      | c :: rest =>
        let (run, after) := cut inside rest
        (b :: c :: run, after)
    else
      let (run, after) := cut (if b = 91 then true else if b = 93 then false else inside) rest
      (b :: run, after)

def chunks : Nat → List UInt8 → Option Pattern
  | _, [] => some []
  | 0, _ => none
  | fuel + 1, bs => do
    let afterStars := bs.dropWhile (· = 42)
    let (run, rest) := cut false afterStars
    let ps ← pieces (run.length + 1) run
    return ⟨afterStars.length < bs.length, ps⟩ :: (← chunks fuel rest)

/-- The pattern that a text stands for, if it is well formed. -/
def ofText? (s : String) : Option Pattern :=
  let bs := Text.encode s
  chunks (bs.length + 1) bs

/-- What is left of a name after pieces were matched with its front. -/
def matchPieces : List Piece → List UInt8 → Option (List UInt8)
  | [], name => some name
  | .byte b :: rest, c :: name => if b = c then matchPieces rest name else none
  | .any :: rest, name => do
    if name.head? = some 47 then none
    let (_, name) ← takeChar name
    matchPieces rest name
  | .choice negated found :: rest, name => do
    let (c, name) ← takeChar name
    if (found.any fun (lo, hi) => lo ≤ c && c ≤ hi) = negated then none
    matchPieces rest name
  | .byte _ :: _, [] => none

/-- Matches pieces with a name after skipping at least one byte, none of them a slash. The last
pieces of a pattern must take the whole rest of the name. -/
def matchLater (ps : List Piece) (last : Bool) : List UInt8 → Option (List UInt8)
  | [] => none
  | b :: name =>
    if b = 47 then none
    else
      match matchPieces ps name with
      | some rest => if last && !rest.isEmpty then matchLater ps last name else some rest
      | none => matchLater ps last name

def matchesBytes : Pattern → List UInt8 → Bool
  | [], name => name.isEmpty
  | ⟨star, ps⟩ :: rest, name =>
    if star && ps.isEmpty then !name.contains 47
    else
      match (matchPieces ps name).filter fun after => after.isEmpty || !rest.isEmpty with
      | some after => matchesBytes rest after
      | none =>
        match if star then matchLater ps rest.isEmpty name else none with
        | some after => matchesBytes rest after
        | none => false

/-- Whether a text has characters with a meaning in patterns. -/
def hasMeaning (s : String) : Bool := s.toList.any fun c => c = '*' ∨ c = '?' ∨ c = '[' ∨ c = '\\'

/-- The names in a folder that a pattern stands for, with the folder in front. -/
def inFolder (d : Disk) (p : Pattern) (folder : String) : List String :=
  match d.resolve folder with
  | .error _ => []
  | .ok place =>
    if d.at? place = some .folder then
      ((d.names place).filter fun name => matchesBytes p (Text.encode name)).map (Path.join folder)
    else []

/-- The paths on a disk that a text with patterns between its slashes stands for. -/
def expand (d : Disk) : Nat → String → Option (List String)
  | 0, _ => none
  | fuel + 1, s => do
    let _ ← ofText? s
    if !hasMeaning s then return (if (d.lookup s).isOk then [s] else [])
    else
      let cs := s.toList.reverse
      let file := String.ofList (cs.takeWhile (· ≠ '/')).reverse
      let above := String.ofList (cs.dropWhile (· ≠ '/')).reverse
      let folder := if above = "" then "." else if above = "/" then above
        else String.ofList (above.toList.take (above.length - 1))
      if hasMeaning folder then
        if folder = s then none
        else
          let folders ← expand d fuel folder
          let p ← ofText? file
          return folders.flatMap (inFolder d p)
      else return inFolder d (← ofText? file) folder

/-- The paths that a text stands for; malformed patterns stand for none. -/
def paths? (d : Disk) (s : String) : Option (List String) := expand d (s.length + 1) s

end Pattern

end BlockLang

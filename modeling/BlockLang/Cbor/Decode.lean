import BlockLang.Cbor.Basic

/-! Decoding of data items. Every well-formed encoding is accepted, whether its lengths are given or
open, and whether its numbers are as short as possible or not; nesting and sizes are bounded. -/

namespace BlockLang.Cbor

/-- The deepest nesting of arrays, maps and tags. -/
def maxDepth : Nat := 32

/-- The largest number of elements of an array and of pairs of a map. -/
def maxElements : Nat := 131072

def ofBigEndian (bytes : List UInt8) : Nat := bytes.foldl (fun n b => n * 256 + b.toNat) 0

/-- The first `n` bytes and those behind them, if there are so many. -/
def split? (n : Nat) (bytes : List UInt8) : Option (List UInt8 × List UInt8) :=
  let front := bytes.take n
  if front.length = n then some (front, bytes.drop n) else none

/-- The head of an item: its major type, and a number or, for an open length, none. -/
structure Head where
  major : Nat
  info : Nat
  value : Option Nat
  deriving DecidableEq, Repr

def head? : List UInt8 → Option (Head × List UInt8)
  | [] => none
  | b :: rest =>
    let major := b.toNat / 32
    let info := b.toNat % 32
    let sized (width : Nat) : Option (Head × List UInt8) := do
      let (digits, rest) ← split? width rest
      return (⟨major, info, some (ofBigEndian digits)⟩, rest)
    if info < 24 then some (⟨major, info, some info⟩, rest)
    else if info = 24 then do
      let (h, rest) ← sized 1
      if major = 7 ∧ h.value.getD 0 < 32 then none else some (h, rest)
    else if info = 25 then sized 2
    else if info = 26 then sized 4
    else if info = 27 then sized 8
    else if info = 31 ∧ (2 ≤ major ∧ major ≤ 5) then some (⟨major, info, none⟩, rest)
    else none

/-- Whether the next byte closes an item of open length. -/
def atBreak : List UInt8 → Bool
  | 0xFF :: _ => true
  | _ => false

/-- The chunks of a string of open length, each of which has a length of its own. -/
def chunks? (major : Nat) : Nat → List UInt8 → Option (List (List UInt8) × List UInt8)
  | 0, _ => none
  | fuel + 1, bytes =>
    if atBreak bytes then some ([], bytes.drop 1)
    else do
      let (h, rest) ← head? bytes
      let size ← h.value
      if h.major ≠ major then none
      else
        let (chunk, rest) ← split? size rest
        let (more, rest) ← chunks? major fuel rest
        return (chunk :: more, rest)

def pairUp : List Item → Option (List (Item × Item))
  | [] => some []
  | [_] => none
  | key :: value :: rest => (pairUp rest).map ((key, value) :: ·)

mutual

/-- Reads an item that is nested in `depth` others; `tagged` says whether it is the content of a
tag. -/
def item? : Nat → Nat → Bool → List UInt8 → Option (Item × List UInt8)
  | 0, _, _, _ => none
  | fuel + 1, depth, tagged, bytes => do
    let (h, rest) ← head? bytes
    match h.major with
    | 0 => return (.unsigned (h.value.getD 0), rest)
    | 1 => return (.negative (h.value.getD 0), rest)
    | 2 =>
      match h.value with
      | some size =>
        let (content, rest) ← split? size rest
        return (.bytes content, rest)
      | none =>
        let (chunks, rest) ← chunks? 2 fuel rest
        return (.bytes chunks.flatten, rest)
    | 3 =>
      match h.value with
      | some size =>
        let (content, rest) ← split? size rest
        return (.text [content], rest)
      | none =>
        let (chunks, rest) ← chunks? 3 fuel rest
        return (.text chunks, rest)
    | 4 =>
      if maxDepth < depth + 1 then none
      else
        match h.value with
        | some size =>
          if maxElements < size then none
          else
            let (items, rest) ← items? fuel (depth + 1) size rest
            return (.array items, rest)
        | none =>
          let (items, rest) ← open? fuel (depth + 1) rest
          if maxElements < items.length then none else return (.array items, rest)
    | 5 =>
      if maxDepth < depth + 1 then none
      else
        match h.value with
        | some size =>
          if maxElements < size then none
          else
            let (items, rest) ← items? fuel (depth + 1) (2 * size) rest
            return (.map (← pairUp items), rest)
        | none =>
          let (items, rest) ← open? fuel (depth + 1) rest
          if maxElements < items.length / 2 then none
          else return (.map (← pairUp items), rest)
    | 6 =>
      let depth := if tagged then depth + 1 else depth
      if tagged ∧ maxDepth < depth then none
      else
        let (content, rest) ← item? fuel depth true rest
        return (.tag (h.value.getD 0) content, rest)
    | _ =>
      if 25 ≤ h.info then return (.float, rest)
      else return (.simple (h.value.getD 0), rest)

def items? : Nat → Nat → Nat → List UInt8 → Option (List Item × List UInt8)
  | _, _, 0, bytes => some ([], bytes)
  | 0, _, _ + 1, _ => none
  | fuel + 1, depth, count + 1, bytes => do
    let (item, rest) ← item? fuel depth false bytes
    let (more, rest) ← items? fuel depth count rest
    return (item :: more, rest)

/-- Reads items up to the byte that closes them. -/
def open? : Nat → Nat → List UInt8 → Option (List Item × List UInt8)
  | 0, _, _ => none
  | fuel + 1, depth, bytes =>
    if atBreak bytes then some ([], bytes.drop 1)
    else do
      let (item, rest) ← item? fuel depth false bytes
      let (more, rest) ← open? fuel depth rest
      return (item :: more, rest)

end

/-- The item that a byte sequence encodes, with nothing behind it. -/
def decode? (bytes : List UInt8) : Option Item :=
  match item? (2 * bytes.length + 2) 0 false bytes with
  | some (item, []) => some item
  | _ => none

end BlockLang.Cbor

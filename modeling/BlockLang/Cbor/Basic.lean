/-! Data items of the Concise Binary Object Representation and their canonical encoding, in which
every length and number takes as few bytes as possible. -/

namespace BlockLang.Cbor

/-- A data item. A negative integer is given by the number `n` of which it is `-1 - n`; a text is
given by the chunks in which its bytes came; a floating-point number is not looked into. -/
inductive Item where
  | unsigned (n : Nat)
  | negative (n : Nat)
  | bytes (content : List UInt8)
  | text (chunks : List (List UInt8))
  | array (items : List Item)
  | map (pairs : List (Item × Item))
  | tag (number : Nat) (content : Item)
  | simple (n : Nat)
  | float
  deriving Repr, Inhabited

def null : Item := .simple 22

/-- The last `width` bytes of a number, most significant first. -/
def bigEndian : Nat → Nat → List UInt8
  | 0, _ => []
  | width + 1, n => bigEndian width (n / 256) ++ [UInt8.ofNat n]

/-- The head of an item: its major type and a number. -/
def head (major n : Nat) : List UInt8 :=
  let first (low : Nat) : UInt8 := UInt8.ofNat (major * 32 + low)
  if n < 24 then [first n]
  else if n < 0x100 then first 24 :: bigEndian 1 n
  else if n < 0x10000 then first 25 :: bigEndian 2 n
  else if n < 0x100000000 then first 26 :: bigEndian 4 n
  else first 27 :: bigEndian 8 n

def ofInt (n : Int) : Item := if n < 0 then .negative (-1 - n).toNat else .unsigned n.toNat

mutual

def encode : Item → List UInt8
  | .unsigned n => head 0 n
  | .negative n => head 1 n
  | .bytes content => head 2 content.length ++ content
  | .text chunks => head 3 chunks.flatten.length ++ chunks.flatten
  | .array items => head 4 items.length ++ encodeAll items
  | .map pairs => head 5 pairs.length ++ encodePairs pairs
  | .tag number content => head 6 number ++ encode content
  | .simple n => head 7 n
  | .float => [0xF9, 0x7E, 0x00]

def encodeAll : List Item → List UInt8
  | [] => []
  | item :: rest => encode item ++ encodeAll rest

def encodePairs : List (Item × Item) → List UInt8
  | [] => []
  | (key, value) :: rest => encode key ++ (encode value ++ encodePairs rest)

end

end BlockLang.Cbor

import BlockLang.Text.Utf8

/-! The 64-bit xxHash with seed zero, which identifies the source that a program was compiled from.
Input is taken in stripes of 32 bytes by four lanes, whose merge is followed by the remaining words
and bytes and a final mixing. -/

namespace BlockLang.Digest

/-- The primes of the hash. -/
def prime₁ : UInt64 := 0x9E3779B185EBCA87

@[inherit_doc prime₁] def prime₂ : UInt64 := 0xC2B2AE3D27D4EB4F

@[inherit_doc prime₁] def prime₃ : UInt64 := 0x165667B19E3779F9

@[inherit_doc prime₁] def prime₄ : UInt64 := 0x85EBCA77C2B2AE63

@[inherit_doc prime₁] def prime₅ : UInt64 := 0x27D4EB2F165667C5

/-- Rotates the bits of a word to the left. -/
def rotate (x : UInt64) (n : UInt64) : UInt64 := (x <<< n) ||| (x >>> (64 - n))

/-- The little-endian number of some bytes. -/
def word (bytes : List UInt8) : UInt64 :=
  bytes.foldr (fun b acc => (acc <<< 8) ||| b.toUInt64) 0

def round (lane input : UInt64) : UInt64 := rotate (lane + input * prime₂) 31 * prime₁

def merge (hash lane : UInt64) : UInt64 := (hash ^^^ round 0 lane) * prime₁ + prime₄

/-- The four lanes of the hash. -/
structure Lanes where
  a : UInt64 := prime₁ + prime₂
  b : UInt64 := prime₂
  c : UInt64 := 0
  d : UInt64 := 0 - prime₁

def Lanes.take (l : Lanes) (stripe : List UInt8) : Lanes :=
  ⟨round l.a (word (stripe.take 8)), round l.b (word ((stripe.drop 8).take 8)),
   round l.c (word ((stripe.drop 16).take 8)), round l.d (word ((stripe.drop 24).take 8))⟩

def Lanes.join (l : Lanes) : UInt64 :=
  let hash := rotate l.a 1 + rotate l.b 7 + rotate l.c 12 + rotate l.d 18
  merge (merge (merge (merge hash l.a) l.b) l.c) l.d

/-- Takes whole stripes, of which there are `count`, and yields the lanes and the bytes behind
them. -/
def stripes : Nat → Lanes → List UInt8 → Lanes × List UInt8
  | 0, lanes, bytes => (lanes, bytes)
  | count + 1, lanes, bytes => stripes count (lanes.take (bytes.take 32)) (bytes.drop 32)

/-- Takes the words of eight bytes, of which there are `count`. -/
def words : Nat → UInt64 → List UInt8 → UInt64 × List UInt8
  | 0, hash, bytes => (hash, bytes)
  | count + 1, hash, bytes =>
    words count (rotate (hash ^^^ round 0 (word (bytes.take 8))) 27 * prime₁ + prime₄)
      (bytes.drop 8)

/-- Takes a word of four bytes if there is one. -/
def half (hash : UInt64) (bytes : List UInt8) : UInt64 × List UInt8 :=
  if bytes.length < 4 then (hash, bytes)
  else
    (rotate (hash ^^^ (word (bytes.take 4) * prime₁)) 23 * prime₂ + prime₃, bytes.drop 4)

/-- Takes the last bytes one by one. -/
def tail (hash : UInt64) (bytes : List UInt8) : UInt64 :=
  bytes.foldl (fun h b => rotate (h ^^^ (b.toUInt64 * prime₅)) 11 * prime₁) hash

def avalanche (h : UInt64) : UInt64 :=
  let h := (h ^^^ (h >>> 33)) * prime₂
  let h := (h ^^^ (h >>> 29)) * prime₃
  h ^^^ (h >>> 32)

def ofBytes (bytes : List UInt8) : UInt64 :=
  let size := bytes.length
  let (start, rest) :=
    if size < 32 then (prime₅, bytes)
    else
      let (lanes, rest) := stripes (size / 32) {} bytes
      (lanes.join, rest)
  let (hash, rest) := words (rest.length / 8) (start + UInt64.ofNat size) rest
  let (hash, rest) := half hash rest
  avalanche (tail hash rest)

/-- The hash of a source: that of its UTF-8 form. -/
def ofSource (source : List Char) : UInt64 := ofBytes (Text.encode (String.ofList source))

end BlockLang.Digest

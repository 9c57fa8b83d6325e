/-! Decoding UTF-8 that may be malformed: every byte that does not belong to a valid encoding
stands for one replacement character. -/

namespace BlockLang.Text

/-- The character that stands for an undecodable byte. -/
def replacement : Char := Char.ofNat 0xFFFD

/-- A continuation byte, 0x80 to 0xBF. -/
def isContinuation (b : UInt8) : Bool := 0x80 ≤ b && b ≤ 0xBF

/-- The six payload bits of a continuation byte. -/
def payload (b : UInt8) : Nat := b.toNat % 64

/-- The first code point of a byte sequence and the number of bytes it takes, or nothing if the
sequence does not begin with a valid encoding. Overlong forms, surrogates and numbers above
U+10FFFF are not valid. -/
def firstChar? : List UInt8 → Option (Char × Nat)
  | [] => none
  | b₀ :: rest =>
    if b₀ < 0x80 then some (Char.ofNat b₀.toNat, 1)
    else if b₀ < 0xC2 then none
    else if b₀ < 0xE0 then
      match rest with
      | b₁ :: _ =>
        if isContinuation b₁ then some (Char.ofNat ((b₀.toNat % 32) * 64 + payload b₁), 2) else none
      | _ => none
    else if b₀ < 0xF0 then
      match rest with
      | b₁ :: b₂ :: _ =>
        if isContinuation b₁ && isContinuation b₂ && (b₀ != 0xE0 || 0xA0 ≤ b₁)
            && (b₀ != 0xED || b₁ ≤ 0x9F) then
          some (Char.ofNat ((b₀.toNat % 16) * 4096 + payload b₁ * 64 + payload b₂), 3)
        else none
      | _ => none
    else if b₀ < 0xF5 then
      match rest with
      | b₁ :: b₂ :: b₃ :: _ =>
        if isContinuation b₁ && isContinuation b₂ && isContinuation b₃ && (b₀ != 0xF0 || 0x90 ≤ b₁)
            && (b₀ != 0xF4 || b₁ ≤ 0x8F) then
          some (Char.ofNat ((b₀.toNat % 8) * 262144 + payload b₁ * 4096 + payload b₂ * 64
            + payload b₃), 4)
        else none
      | _ => none
    else none

/-- Decodes bytes while skipping the ones that the code point before them has already taken. -/
def decodeFrom : Nat → List UInt8 → List Char
  | _, [] => []
  | skip + 1, _ :: rest => decodeFrom skip rest
  | 0, b :: rest =>
    match firstChar? (b :: rest) with
    | some (c, width) => c :: decodeFrom (width - 1) rest
    | none => replacement :: decodeFrom 0 rest

/-- The code points of a byte sequence, a replacement character for each byte that is out of
place. -/
def decodeLossy (bytes : List UInt8) : List Char := decodeFrom 0 bytes

/-- Whether every byte belongs to a valid encoding. -/
def validFrom : Nat → List UInt8 → Bool
  | skip, [] => skip == 0
  | skip + 1, _ :: rest => validFrom skip rest
  | 0, b :: rest =>
    match firstChar? (b :: rest) with
    | some (_, width) => validFrom (width - 1) rest
    | none => false

/-- The text that a byte sequence encodes, if it is valid throughout. -/
def decode? (bytes : List UInt8) : Option String :=
  if validFrom 0 bytes then some (String.ofList (decodeLossy bytes)) else none

def encode (s : String) : List UInt8 := s.toUTF8.toList

end BlockLang.Text

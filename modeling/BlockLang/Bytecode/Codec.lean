import BlockLang.Bytecode.Program
import BlockLang.Cbor.Decode
import BlockLang.Text.Utf8

/-! The stored form of a program: a signature and version, followed by a map from field numbers to
fields. An argument of zero is left out. Reading is lenient about everything that does not change
the meaning: the order of fields, unknown fields, and nothing in place of a value. -/

namespace BlockLang

/-- Why bytes are not a stored program. -/
inductive StoredError where
  | notAProgram
  | undecodable
  | invalid (cause : Invalid)
  deriving DecidableEq, Repr, Inhabited

/-- How a defect of a stored program is worded. What a decoder of the format would add about the item
that it stumbled on is left out. -/
def StoredError.message : StoredError → String
  | notAProgram => "bytecode: not a compiled swindle program"
  | undecodable => "bytecode: unmarshal program"
  | invalid cause => "bytecode: invalid program: " ++ cause.message

namespace Stored

/-- The signature of a stored program; its last byte is the version. -/
def signature : List UInt8 := [0x53, 0x57, 0x42, 0x43, 0x01]

def textItem (s : String) : Cbor.Item := .text [Text.encode s]

def instrItem (i : Instr) : Cbor.Item :=
  .map ((.unsigned 1, .unsigned i.code.toNat)
    :: if i.arg = 0 then [] else [(.unsigned 2, Cbor.ofInt i.arg.toInt)])

def sectionItem {α : Type} (item : α → Cbor.Item) : Option (Array α) → Cbor.Item
  | none => Cbor.null
  | some xs => .array (xs.toList.map item)

def programItem (p : Program) : Cbor.Item :=
  .map [(.unsigned 1, sectionItem instrItem p.code),
    (.unsigned 2, sectionItem textItem p.strings),
    (.unsigned 3, Cbor.ofInt p.labelCount.toInt),
    (.unsigned 4, Cbor.ofInt p.slotCount.toInt),
    (.unsigned 5, .unsigned p.sourceHash.toNat)]

/-- The key of a field: a number or a name. -/
inductive Key where
  | number (n : Int64)
  | name (s : String)
  deriving DecidableEq, Repr

def text? (chunks : List (List UInt8)) : Option String :=
  (chunks.mapM Text.decode?).map String.join

/-- The key that an item is; other items than numbers and texts are none. -/
def key? : Cbor.Item → Option Key
  | .unsigned n => some (.number (Int64.ofNat n))
  | .negative n => some (.number (Int64.ofInt (-1 - (n : Int))))
  | .text chunks => (text? chunks).map .name
  | _ => none

/-- Whether a key means the field of a number, which may be written as a number or as a name. -/
def Key.means (field : Nat) : Key → Bool
  | number n => n == Int64.ofNat field
  | name s => s == toString field

/-- The fields of a map, if every key is one. -/
def fields? (pairs : List (Cbor.Item × Cbor.Item)) : Option (List (Key × Cbor.Item)) :=
  pairs.mapM fun (key, value) => (key? key).map (·, value)

/-- The item of a field, which is the first one under its number. -/
def field (fields : List (Key × Cbor.Item)) (number : Nat) : Cbor.Item :=
  match fields.find? fun f => f.1.means number with
  | some (_, item) => item
  | none => Cbor.null

/-- What an item stands for once its tags are taken off. -/
inductive Plain where
  | nothing
  | integer (n : Int)
  | text (chunks : List (List UInt8))
  | array (items : List Cbor.Item)
  | map (pairs : List (Cbor.Item × Cbor.Item))
  | other

/-- Whether the content of a tag is of the sort that the tag asks for. -/
def tagFits (number : Nat) (content : Cbor.Item) : Bool :=
  match number, content with
  | 0, .text _ => true
  | 0, _ => false
  | 1, .unsigned _ | 1, .negative _ | 1, .float => true
  | 1, _ => false
  | 2, .bytes _ | 3, .bytes _ => true
  | 2, _ | 3, _ => false
  | _, _ => true

/-- What an item stands for: tags are taken off, and the bytes of a big number are its value. -/
def plain? : Cbor.Item → Option Plain
  | .unsigned n => some (.integer n)
  | .negative n => some (.integer (-1 - n))
  | .bytes _ => some .other
  | .text chunks => some (.text chunks)
  | .array items => some (.array items)
  | .map pairs => some (.map pairs)
  | .simple n =>
    if n = 22 ∨ n = 23 then some .nothing
    else if n = 20 ∨ n = 21 then some .other
    else some (.integer n)
  | .float => some .other
  | .tag number content =>
    if tagFits number content then
      match number, content with
      | 2, .bytes digits => some (.integer (Cbor.ofBigEndian digits))
      | 3, .bytes digits => some (.integer (-1 - (Cbor.ofBigEndian digits : Int)))
      | _, _ => plain? content
    else none

/-- An integer within bounds, where nothing reads as zero. -/
def integer? (low high : Int) (item : Cbor.Item) : Option Int :=
  match plain? item with
  | some .nothing => some 0
  | some (.integer n) => if low ≤ n ∧ n ≤ high then some n else none
  | _ => none

/-- A signed 64-bit integer. -/
def int64? (item : Cbor.Item) : Option Int64 :=
  (integer? (-Int.pow 2 63) (Int.pow 2 63 - 1) item).map Int64.ofInt

/-- A string constant, where nothing reads as the empty string. -/
def string? (item : Cbor.Item) : Option String :=
  match plain? item with
  | some .nothing => some ""
  | some (.text chunks) => text? chunks
  | _ => none

/-- The fields of a structure, where nothing reads as a structure without fields. -/
def structure? (item : Cbor.Item) : Option (List (Key × Cbor.Item)) :=
  match plain? item with
  | some .nothing => some []
  | some (.map pairs) => fields? pairs
  | _ => none

def instr? (item : Cbor.Item) : Option Instr := do
  let fields ← structure? item
  let code ← integer? 0 255 (field fields 1)
  let arg ← int64? (field fields 2)
  return ⟨UInt8.ofNat code.toNat, arg⟩

/-- A section, which is missing where there is nothing. -/
def section? {α : Type} (element? : Cbor.Item → Option α) (item : Cbor.Item) :
    Option (Option (Array α)) :=
  match plain? item with
  | some .nothing => some none
  | some (.array items) => (items.mapM element?).map fun xs => some xs.toArray
  | _ => none

def program? (item : Cbor.Item) : Option Program := do
  let fields ← structure? item
  let code ← section? instr? (field fields 1)
  let strings ← section? string? (field fields 2)
  let labelCount ← int64? (field fields 3)
  let slotCount ← int64? (field fields 4)
  let hash ← integer? 0 (Int.pow 2 64 - 1) (field fields 5)
  return { code, strings, labelCount, slotCount, sourceHash := UInt64.ofNat hash.toNat }

end Stored

namespace Program

def toBytes (p : Program) : List UInt8 := Stored.signature ++ Cbor.encode (Stored.programItem p)

/-- The program of a stored form. A program that can be read must also be valid. -/
def ofBytes (bytes : List UInt8) : Except StoredError Program :=
  if Stored.signature.isPrefixOf bytes then
    match (Cbor.decode? (bytes.drop Stored.signature.length)).bind Stored.program? with
    | none => .error .undecodable
    | some p =>
      match p.validate with
      | .error cause => .error (.invalid cause)
      | .ok () => .ok p
  else .error .notAProgram

end Program

end BlockLang

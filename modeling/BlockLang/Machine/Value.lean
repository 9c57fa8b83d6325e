/-! The values of the machine. A string is either a constant of the program, which is never counted,
or a counted record of the heap. A value is stored as a cell, a byte for its kind and a 64-bit
payload, and it is the cell that is put into words. -/

namespace BlockLang

/-- A stored value. -/
structure Cell where
  kind : UInt8
  payload : Int64
  deriving DecidableEq, Repr, Inhabited

namespace Cell

def kindName (c : Cell) : String :=
  match c.kind.toNat with
  | 0 => "unit"
  | 1 => "int"
  | 2 => "bool"
  | 3 => "const"
  | 4 => "heap"
  | n => "Kind(" ++ toString n ++ ")"

def isString (c : Cell) : Bool := c.kind == 3 || c.kind == 4

/-- A cell as it is shown in traces. -/
def text (c : Cell) : String :=
  match c.kind.toNat with
  | 0 => "()"
  | 1 => toString c.payload.toInt
  | 2 => toString (c.payload != 0)
  | _ => c.kindName ++ "#" ++ toString c.payload.toInt

end Cell

/-- A value. -/
inductive Value where
  | unit
  | int (n : Int64)
  | bool (b : Bool)
  | const (index : Int64)
  | heap (id : Nat)
  deriving DecidableEq, Repr, Inhabited

namespace Value

def toCell : Value → Cell
  | unit => ⟨0, 0⟩
  | int n => ⟨1, n⟩
  | bool b => ⟨2, if b then 1 else 0⟩
  | const index => ⟨3, index⟩
  | heap id => ⟨4, Int64.ofNat id⟩

def kindName (v : Value) : String := v.toCell.kindName

/-- A value as it is shown in traces. -/
def text (v : Value) : String := v.toCell.text

def isString : Value → Bool
  | const _ | heap _ => true
  | _ => false

end Value

end BlockLang

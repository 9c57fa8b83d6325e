/-! The heap of counted strings. A record is freed when its count drops to zero, and the number that
was freed last is handed out first. -/

namespace BlockLang

/-- A live record. -/
structure HeapRecord where
  content : String
  refs : Nat
  deriving DecidableEq, Repr, Inhabited

/-- The heap: the records by number, where a freed number has none, and the freed numbers, the last
one first. -/
structure Heap where
  records : Array (Option HeapRecord) := #[]
  free : List Nat := []
  deriving DecidableEq, Repr, Inhabited

namespace Heap

/-- The record of a number, if it is live. -/
def find? (h : Heap) (id : Nat) : Option HeapRecord := (h.records[id]?).join

def live (h : Heap) : Nat := h.records.foldl (fun n r => if r.isSome then n + 1 else n) 0

/-- Stores a string with a count of one. -/
def alloc (h : Heap) (s : String) : Nat × Heap :=
  match h.free with
  | id :: free => (id, { records := h.records.setIfInBounds id (some ⟨s, 1⟩), free })
  | [] => (h.records.size, { records := h.records.push (some ⟨s, 1⟩), free := [] })

/-- Counts one reference more. -/
def incr? (h : Heap) (id : Nat) : Option Heap :=
  (h.find? id).map fun r =>
    { h with records := h.records.setIfInBounds id (some { r with refs := r.refs + 1 }) }

/-- Counts one reference less, and frees the record with the last one. -/
def decr? (h : Heap) (id : Nat) : Option Heap :=
  (h.find? id).map fun r =>
    if r.refs ≤ 1 then
      { records := h.records.setIfInBounds id none, free := id :: h.free }
    else
      { h with records := h.records.setIfInBounds id (some { r with refs := r.refs - 1 }) }

/-- A request to a heap. A number from outside may be any integer. -/
inductive Request where
  | alloc (s : String)
  | incr (id : Int)
  | decr (id : Int)
  | content (id : Int)
  | refs (id : Int)
  | live
  deriving DecidableEq, Repr, Inhabited

/-- What a heap answers. -/
inductive Answer where
  | done
  | allocated (id : Nat)
  | content (s : String)
  | refs (n : Nat)
  | live (n : Nat)
  | notLive (id : Int)
  deriving DecidableEq, Repr, Inhabited

/-- Does something with the record of a number, or reports that there is none and changes
nothing. -/
def withLive (h : Heap) (id : Int) (act : Nat → HeapRecord → Answer × Heap) : Answer × Heap :=
  if id < 0 then (.notLive id, h)
  else
    match h.find? id.toNat with
    | some r => act id.toNat r
    | none => (.notLive id, h)

def serve (h : Heap) : Request → Answer × Heap
  | .alloc s => let (id, h) := h.alloc s; (.allocated id, h)
  | .incr id => h.withLive id fun n _ => (.done, (h.incr? n).getD h)
  | .decr id => h.withLive id fun n _ => (.done, (h.decr? n).getD h)
  | .content id => h.withLive id fun _ r => (.content r.content, h)
  | .refs id => h.withLive id fun _ r => (.refs r.refs, h)
  | .live => (.live h.live, h)

end Heap

end BlockLang

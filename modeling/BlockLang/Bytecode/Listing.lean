import BlockLang.Bytecode.Program
import BlockLang.Text.Pad
import BlockLang.Text.Quoted

/-! The listing of a program: its counts, its string constants, and its instructions with their
indices. A string constant that the program does not have cannot be listed. -/

namespace BlockLang.Program

/-- One instruction of a listing, or nothing if it refers to a string constant that is not
there. -/
def listInstr? (p : Program) (index : Nat) (i : Instr) : Option String :=
  let lead := Text.padZeros 4 index ++ "  "
  let named := lead ++ Text.padRight 12 i.name ++ " "
  match i.operand with
  | .none => some (lead ++ i.name)
  | .int => some (named ++ toString i.arg.toInt)
  | .slot => some (named ++ "#" ++ toString i.arg.toInt)
  | .label => some (named ++ "L" ++ toString i.arg.toInt)
  | .string =>
    (p.constant? i.arg).map fun s => named ++ toString i.arg.toInt ++ " ; " ++ Text.quote s

def listingLines? (p : Program) : Option (List String) := do
  let header := "; slots: " ++ toString p.slotCount.toInt ++ ", labels: "
    ++ toString p.labelCount.toInt ++ ", strings: " ++ toString p.constants.size
  let constants := p.constants.toList.zipIdx.map fun (s, i) =>
    "; string " ++ toString i ++ " = " ++ Text.quote s
  let code ← p.instrs.toList.zipIdx.mapM fun (i, index) => p.listInstr? index i
  return header :: constants ++ code

def listing? (p : Program) : Option String :=
  p.listingLines?.map fun lines => String.join (lines.map (· ++ "\n"))

end BlockLang.Program

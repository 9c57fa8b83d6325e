import BlockLang.Bytecode.Listing
import BlockLang.Proofs.Outlines
import BlockLang.Proofs.Substitution
import BlockLang.Proofs.Tables

/-! A listing determines its program. No line of a listing has a line end of its own, so the text gives away the lines.
The first one says how many string constants there are, and with that which lines are theirs; the others are the
instructions, in order. A line is read from left to right: its number is the place of the line, the name of the
operation ends at a blank, and the operation says how the argument is written. A quoted string comes last in its line,
so that it may look like anything. What a listing does not show is an argument without a meaning, and in generated
code there is none. -/

namespace BlockLang

theorem toList_line (line : String) : (line ++ "\n").toList = line.toList ++ ['\n'] := by
  rw [String.toList_append]
  rfl

/-- Lines without line ends can be told from each other. -/
theorem join_lines_inj {lines lines' : List String} (h : ∀ line ∈ lines, '\n' ∉ line.toList)
    (h' : ∀ line ∈ lines', '\n' ∉ line.toList)
    (heq : String.join (lines.map (· ++ "\n")) = String.join (lines'.map (· ++ "\n"))) : lines = lines' := by
  refine join_map_inj (fun line hline => ?_) ?_ h h' heq
  · have hlist := congrArg String.toList hline
    rw [toList_line] at hlist
    simp at hlist
  · intro line line' hl hl' rest rest' hlist
    rw [toList_line, toList_line, List.append_assoc, List.append_assoc] at hlist
    obtain ⟨htext, hrest⟩ := append_inj_of_stop (p := (· ≠ '\n')) (fun c hc hend => hl (hend ▸ hc))
      (fun c hc hend => hl' (hend ▸ hc)) (fun c hc => not_not.mpr (head?_cons _ _ c hc))
      (fun c hc => not_not.mpr (head?_cons _ _ c hc)) hlist
    exact ⟨String.toList_inj.mp htext, (List.cons.inj hrest).2⟩

namespace Op

def all : List Op :=
  [pushInt, pushBool, pushUnit, pushString, pop, load, declare, assign, neg, not, stringify, add, sub, mul, div, rem,
    and, or, eq, ne, lt, le, gt, ge, strEq, strNe, append, write, writeln, label, jump, jumpFalse]

theorem mem_all (op : Op) : op ∈ all := by
  cases op <;> decide

theorem name_inj {op op' : Op} (h : op.name = op'.name) : op = op' := by
  have hnodup : (all.map name).Nodup := by decide
  exact List.inj_on_of_nodup_map hnodup op.mem_all op'.mem_all h

theorem isPlain_name (op : Op) : IsPlain op.name.toList := by
  cases op <;> simp [name, IsPlain]

end Op

namespace Program

variable {p p' : Program} {op : Op} {arg arg' : Int64}

/-- The blanks behind the name of an operation that has an operand. -/
def gap (op : Op) : List Char := ' ' :: List.replicate (12 - op.name.length) ' '

def behind? (p : Program) (op : Op) (arg : Int64) : Option (List Char) :=
  match op.operand with
  | .none => some []
  | .int => some (gap op ++ (toString arg.toInt).toList)
  | .slot => some (gap op ++ '#' :: (toString arg.toInt).toList)
  | .label => some (gap op ++ 'L' :: (toString arg.toInt).toList)
  | .string =>
    (p.constant? arg).map fun s =>
      gap op ++ ((toString arg.toInt).toList ++ ' ' :: ';' :: ' ' :: (Text.quote s).toList)

theorem toList_padRight (op : Op) : (Text.padRight 12 op.name ++ " ").toList = op.name.toList ++ gap op := by
  rw [Text.padRight, String.toList_append, toList_pushn, List.append_assoc, gap, ← List.replicate_succ,
    List.replicate_succ']
  rfl

/-- A line of code is its number, the name of its operation and what follows that. -/
theorem listInstr?_eq_map {i : Instr} (h : i.op? = some op) (index : Nat) :
    p.listInstr? index i = (p.behind? op i.arg).map fun cs =>
      Text.padZeros 4 index ++ "  " ++ op.name ++ String.ofList cs := by
  have hnamed : ∀ rest : String, Text.padZeros 4 index ++ "  " ++ Text.padRight 12 op.name ++ " " ++ rest =
      Text.padZeros 4 index ++ "  " ++ op.name ++ String.ofList (gap op ++ rest.toList) := by
    intro rest
    have hgap := toList_padRight op
    rw [String.toList_append] at hgap
    simp only [← String.toList_inj, String.toList_append, String.toList_ofList, List.append_assoc]
    rw [← List.append_assoc _ " ".toList, hgap, List.append_assoc]
  have hoperand : i.operand = op.operand := by rw [Instr.operand, h]
  have hname : i.name = op.name := by rw [Instr.name, h]
  rw [listInstr?, behind?, hoperand, hname]
  cases op.operand with
  | none => exact congrArg some (String.append_empty).symm
  | int => exact congrArg some (hnamed _)
  | slot | label =>
      refine congrArg some ((String.append_assoc ..).trans ((hnamed _).trans ?_))
      rw [String.toList_append]
      rfl
  | string =>
      rw [Option.map_map]
      refine congrArg (Option.map · _) (funext fun s => ?_)
      refine (congrArg (· ++ Text.quote s) (String.append_assoc ..)).trans ?_
      refine (String.append_assoc ..).trans ((hnamed _).trans ?_)
      rw [String.toList_append, String.toList_append, List.append_assoc]
      rfl

/-- What stands behind the name of an operation begins with a blank. -/
theorem behind?_starts {cs : List Char} (h : p.behind? op arg = some cs) : ∀ c ∈ cs.head?, c = ' ' := by
  rw [behind?] at h
  cases hoperand : op.operand with
  | none =>
      rw [hoperand] at h
      cases h
      exact fun _ hc => absurd hc (Option.not_mem_none _)
  | int | slot | label =>
      rw [hoperand] at h
      cases h
      exact head?_cons _ _
  | string =>
      rw [hoperand] at h
      obtain ⟨s, -, rfl⟩ := Option.map_eq_some_iff.mp h
      exact head?_cons _ _

/-- An instruction is listed in one line. -/
theorem newline_notMem_behind {cs : List Char} (h : p.behind? op arg = some cs) : '\n' ∉ cs := by
  have hgap : '\n' ∉ gap op := by simp [gap]
  have hnumeral := (isPlain_toString_int arg.toInt).newline_notMem
  rw [behind?] at h
  cases hoperand : op.operand with
  | none =>
      rw [hoperand] at h
      cases h
      exact List.not_mem_nil
  | int | slot | label =>
      rw [hoperand] at h
      cases h
      simpa using ⟨hgap, hnumeral⟩
  | string =>
      rw [hoperand] at h
      obtain ⟨s, -, rfl⟩ := Option.map_eq_some_iff.mp h
      simpa using ⟨hgap, hnumeral, Text.newline_notMem_quote s⟩

/-- The text behind a name tells the argument, if there is one. -/
theorem behind?_inj {cs : List Char} (h : p.behind? op arg = some cs) (h' : p'.behind? op arg' = some cs)
    (hoperand : op.operand ≠ .none) : arg = arg' := by
  have hnumeral : (toString arg.toInt).toList = (toString arg'.toInt).toList → arg = arg' :=
    fun heq => Int64.toInt_inj.mp (toString_int_injective (String.toList_inj.mp heq))
  rw [behind?] at h h'
  cases hop : op.operand with
  | none => exact absurd hop hoperand
  | int =>
      rw [hop] at h h'
      exact hnumeral (List.append_cancel_left (Option.some.inj (h.trans h'.symm)))
  | slot | label =>
      rw [hop] at h h'
      exact hnumeral (List.cons.inj (List.append_cancel_left (Option.some.inj (h.trans h'.symm)))).2
  | string =>
      rw [hop] at h h'
      obtain ⟨s, -, rfl⟩ := Option.map_eq_some_iff.mp h
      obtain ⟨s', -, heq⟩ := Option.map_eq_some_iff.mp h'
      have hrest := List.append_cancel_left heq.symm
      exact hnumeral ((isPlain_toString_int _).inj (isPlain_toString_int _) (head?_cons _ _) (head?_cons _ _) hrest).1

/-- An instruction of which a listing shows all there is: its operation is known, an argument that means nothing is
zero, and a string that it names is there. -/
def Lists (p : Program) (i : Instr) : Prop :=
  ∃ op, i.op? = some op ∧ (op.operand = .none → i.arg = 0) ∧ (op.operand = .string → ∃ s, p.constant? i.arg = some s)

theorem Lists.listInstr? {i : Instr} (h : p.Lists i) (index : Nat) : ∃ line, p.listInstr? index i = some line := by
  obtain ⟨op, hop, -, hstring⟩ := h
  rw [listInstr?_eq_map hop, behind?]
  cases hoperand : op.operand with
  | none | int | slot | label => exact ⟨_, rfl⟩
  | string =>
      obtain ⟨s, hs⟩ := hstring hoperand
      rw [hs]
      exact ⟨_, rfl⟩

theorem newline_notMem_listInstr {i : Instr} {index : Nat} {line : String} (h : p.Lists i)
    (hline : p.listInstr? index i = some line) : '\n' ∉ line.toList := by
  obtain ⟨op, hop, -⟩ := h
  rw [listInstr?_eq_map hop] at hline
  obtain ⟨cs, hcs, rfl⟩ := Option.map_eq_some_iff.mp hline
  have hindex : '\n' ∉ (Text.padZeros 4 index).toList := by
    rw [Text.padZeros, String.toList_append, toList_pushn, List.mem_append, not_or]
    exact ⟨by simp, (isPlain_toString_int index).newline_notMem⟩
  simp only [String.toList_append, String.toList_ofList, List.mem_append, not_or]
  exact ⟨⟨⟨hindex, by decide⟩, op.isPlain_name.newline_notMem⟩, newline_notMem_behind hcs⟩

/-- A line of code tells its instruction. -/
theorem listInstr?_inj {i i' : Instr} {index : Nat} {line : String} (h : p.Lists i) (h' : p'.Lists i')
    (hline : p.listInstr? index i = some line) (hline' : p'.listInstr? index i' = some line) : i = i' := by
  obtain ⟨op, hop, hnone, -⟩ := h
  obtain ⟨op', hop', hnone', -⟩ := h'
  rw [listInstr?_eq_map hop] at hline
  rw [listInstr?_eq_map hop'] at hline'
  obtain ⟨cs, hcs, rfl⟩ := Option.map_eq_some_iff.mp hline
  obtain ⟨cs', hcs', heq⟩ := Option.map_eq_some_iff.mp hline'
  have hlist := congrArg String.toList heq.symm
  simp only [String.toList_append, String.toList_ofList, List.append_assoc] at hlist
  have hbehind := List.append_cancel_left (List.append_cancel_left hlist)
  obtain ⟨hname, rfl⟩ := op.isPlain_name.inj op'.isPlain_name (behind?_starts hcs) (behind?_starts hcs') hbehind
  obtain rfl := Op.name_inj (String.toList_inj.mp hname)
  have harg : i.arg = i'.arg := by
    by_cases hoperand : op.operand = .none
    · rw [hnone hoperand, hnone' hoperand]
    · exact behind?_inj hcs hcs' hoperand
  rw [Instr.eq_of_op? hop, Instr.eq_of_op? hop', harg]

/-! ### Code -/

/-- The lines of some code, the first of which has the number `index`. -/
def listCode? (p : Program) (index : Nat) (code : List Instr) : Option (List String) :=
  (code.zipIdx index).mapM fun (i, index) => p.listInstr? index i

theorem listCode?_cons {index : Nat} {i : Instr} {code : List Instr} {lines : List String} :
    p.listCode? index (i :: code) = some lines ↔ ∃ line rest, p.listInstr? index i = some line ∧
      p.listCode? (index + 1) code = some rest ∧ lines = line :: rest := by
  rw [listCode?, List.zipIdx_cons, List.mapM_cons]
  constructor
  · intro h
    obtain ⟨line, hline, h⟩ := Option.bind_eq_some_iff.mp h
    obtain ⟨rest, hrest, h⟩ := Option.bind_eq_some_iff.mp h
    exact ⟨line, rest, hline, hrest, (Option.some.inj h).symm⟩
  · rintro ⟨line, rest, hline, hrest, rfl⟩
    exact Option.bind_eq_some_iff.mpr ⟨line, hline, Option.bind_eq_some_iff.mpr ⟨rest, hrest, rfl⟩⟩

theorem listCode?_lines {code : List Instr} (h : ∀ i ∈ code, p.Lists i) (index : Nat) :
    ∃ lines, p.listCode? index code = some lines ∧ ∀ line ∈ lines, '\n' ∉ line.toList := by
  induction code generalizing index with
  | nil => exact ⟨[], rfl, List.forall_mem_nil _⟩
  | cons i code ih =>
      rw [List.forall_mem_cons] at h
      obtain ⟨line, hline⟩ := h.1.listInstr? index
      obtain ⟨rest, hrest, hends⟩ := ih h.2 (index + 1)
      refine ⟨line :: rest, listCode?_cons.mpr ⟨line, rest, hline, hrest, rfl⟩, ?_⟩
      exact List.forall_mem_cons.mpr ⟨newline_notMem_listInstr h.1 hline, hends⟩

/-- Code can be told from its lines, instruction by instruction. -/
theorem listCode?_inj {code code' : List Instr} {lines : List String} {index : Nat} (h : ∀ i ∈ code, p.Lists i)
    (h' : ∀ i ∈ code', p'.Lists i) (hlines : p.listCode? index code = some lines)
    (hlines' : p'.listCode? index code' = some lines) : code = code' := by
  induction code generalizing code' lines index with
  | nil =>
      cases hlines
      cases code' with
      | nil => rfl
      | cons i' code' =>
          obtain ⟨_, _, -, -, hcons⟩ := listCode?_cons.mp hlines'
          cases hcons
  | cons i code ih =>
      obtain ⟨line, rest, hline, hrest, rfl⟩ := listCode?_cons.mp hlines
      cases code' with
      | nil => cases hlines'
      | cons i' code' =>
          obtain ⟨line', rest', hline', hrest', heq⟩ := listCode?_cons.mp hlines'
          obtain ⟨rfl, rfl⟩ := List.cons.inj heq
          rw [List.forall_mem_cons] at h h'
          rw [listInstr?_inj h.1 h'.1 hline hline', ih h.2 h'.2 hrest hrest']

def listCounts (slots labels : Int) (strings : Nat) : String :=
  "; slots: " ++ toString slots ++ ", labels: " ++ toString labels ++ ", strings: " ++ toString strings

def listConstant (s : String) (index : Nat) : String := "; string " ++ toString index ++ " = " ++ Text.quote s

theorem newline_notMem_listCounts (slots labels : Int) (strings : Nat) :
    '\n' ∉ (listCounts slots labels strings).toList := by
  have hnumeral := fun n : Int => (isPlain_toString_int n).newline_notMem
  simp only [listCounts, String.toList_append, List.mem_append, not_or]
  exact ⟨⟨⟨⟨⟨by decide, hnumeral slots⟩, by decide⟩, hnumeral labels⟩, by decide⟩, hnumeral strings⟩

theorem newline_notMem_listConstant (s : String) (index : Nat) : '\n' ∉ (listConstant s index).toList := by
  simp only [listConstant, String.toList_append, List.mem_append, not_or]
  exact ⟨⟨⟨by decide, (isPlain_toString_int index).newline_notMem⟩, by decide⟩, Text.newline_notMem_quote s⟩

/-- The counts can be told from each other, as no numeral has a comma. -/
theorem listCounts_inj {slots slots' labels labels' : Int} {strings strings' : Nat}
    (h : listCounts slots labels strings = listCounts slots' labels' strings') :
    slots = slots' ∧ labels = labels' ∧ strings = strings' := by
  have hcut : ∀ {n n' : Int} {rest rest' : List Char},
      (toString n).toList ++ ',' :: rest = (toString n').toList ++ ',' :: rest' → n = n' ∧ rest = rest' := by
    intro n n' rest rest' h
    have hcomma : ∀ n : Int, ∀ c ∈ (toString n).toList, c ≠ ',' :=
      fun n c hc => ne_of_mem_toString_int hc (by decide) (by decide)
    obtain ⟨hn, hrest⟩ := append_inj_of_stop (p := (· ≠ ',')) (hcomma n) (hcomma n')
      (fun c hc => not_not.mpr (head?_cons _ _ c hc)) (fun c hc => not_not.mpr (head?_cons _ _ c hc)) h
    exact ⟨toString_int_injective (String.toList_inj.mp hn), (List.cons.inj hrest).2⟩
  rw [← String.toList_inj] at h
  simp only [listCounts, String.toList_append, List.append_assoc] at h
  obtain ⟨hslots, h⟩ := hcut (List.append_cancel_left h)
  obtain ⟨hlabels, h⟩ := hcut (List.append_cancel_left h)
  exact ⟨hslots, hlabels, Text.toString_injective (String.toList_inj.mp (List.append_cancel_left h))⟩

theorem listConstant_inj {s s' : String} {index index' : Nat} (h : listConstant s index = listConstant s' index') :
    (s, index) = (s', index') := by
  rw [← String.toList_inj] at h
  simp only [listConstant, String.toList_append, List.append_assoc] at h
  have hblank : ∀ rest : List Char, ∀ c ∈ (" = ".toList ++ rest).head?, c = ' ' := fun _ => head?_cons _ _
  obtain ⟨hindex, h⟩ := (isPlain_toString_int index).inj (isPlain_toString_int index') (hblank _) (hblank _)
    (List.append_cancel_left h)
  have hquote := congrArg (· ++ []) (List.append_cancel_left h)
  exact Prod.ext (Text.quote_inj hquote).1 (Text.toString_injective (String.toList_inj.mp hindex))

/-- A program of whose instructions a listing shows all there is. -/
def Listable (p : Program) : Prop := ∀ i ∈ p.instrs.toList, p.Lists i

def constantLines (p : Program) : List String := p.constants.toList.zipIdx.map fun (s, i) => listConstant s i

theorem listingLines?_eq_map (p : Program) : p.listingLines? = (p.listCode? 0 p.instrs.toList).map fun code =>
    listCounts p.slotCount.toInt p.labelCount.toInt p.constants.size :: (p.constantLines ++ code) := by
  rw [listingLines?, ← listCode?]
  cases p.listCode? 0 p.instrs.toList <;> rfl

theorem length_constantLines (p : Program) : p.constantLines.length = p.constants.size := by
  rw [constantLines, List.length_map, List.length_zipIdx, Array.length_toList]

theorem constantLines_inj (h : p.constantLines = p'.constantLines) : p.constants = p'.constants := by
  have hline : Function.Injective fun entry : String × Nat => listConstant entry.1 entry.2 :=
    fun _ _ heq => listConstant_inj heq
  have hentries := congrArg (List.map Prod.fst) (List.map_injective_iff.mpr hline h)
  rw [List.zipIdx_map_fst, List.zipIdx_map_fst] at hentries
  exact Array.toList_inj.mp hentries

/-- A program that can be listed has lines, none of which has a line end. -/
theorem Listable.lines (h : p.Listable) :
    ∃ lines, p.listingLines? = some lines ∧ ∀ line ∈ lines, '\n' ∉ line.toList := by
  obtain ⟨code, hcode, hends⟩ := listCode?_lines h 0
  refine ⟨_, by rw [listingLines?_eq_map, hcode]; rfl, ?_⟩
  refine List.forall_mem_cons.mpr ⟨newline_notMem_listCounts _ _ _, List.forall_mem_append.mpr ⟨?_, hends⟩⟩
  intro line hline
  obtain ⟨entry, -, rfl⟩ := List.mem_map.mp hline
  exact newline_notMem_listConstant entry.1 entry.2

/-- Programs with the same lines are the same: the number of string constants says where the code begins. -/
theorem listingLines?_inj {lines : List String} (h : p.Listable) (h' : p'.Listable)
    (hlines : p.listingLines? = some lines) (hlines' : p'.listingLines? = some lines) :
    p.instrs = p'.instrs ∧ p.constants = p'.constants ∧ p.labelCount = p'.labelCount ∧ p.slotCount = p'.slotCount := by
  rw [listingLines?_eq_map] at hlines hlines'
  obtain ⟨code, hcode, rfl⟩ := Option.map_eq_some_iff.mp hlines
  obtain ⟨code', hcode', heq⟩ := Option.map_eq_some_iff.mp hlines'
  obtain ⟨hcounts, hrest⟩ := List.cons.inj heq.symm
  obtain ⟨hslots, hlabels, hstrings⟩ := listCounts_inj hcounts
  have hlength : p.constantLines.length = p'.constantLines.length := by
    rw [length_constantLines, length_constantLines, hstrings]
  obtain ⟨hconstants, rfl⟩ := List.append_inj hrest hlength
  refine ⟨Array.toList_inj.mp (listCode?_inj h h' hcode hcode'), constantLines_inj hconstants, ?_, ?_⟩
  · exact Int64.toInt_inj.mp hlabels
  · exact Int64.toInt_inj.mp hslots

theorem Listable.listing? (h : p.Listable) : ∃ text, p.listing? = some text := by
  obtain ⟨lines, hlines, -⟩ := h.lines
  exact ⟨_, by rw [Program.listing?, hlines]; rfl⟩

theorem listing?_inj (h : p.Listable) (h' : p'.Listable) (heq : p.listing? = p'.listing?) :
    p.instrs = p'.instrs ∧ p.constants = p'.constants ∧ p.labelCount = p'.labelCount ∧ p.slotCount = p'.slotCount := by
  obtain ⟨lines, hlines, hends⟩ := h.lines
  obtain ⟨lines', hlines', hends'⟩ := h'.lines
  rw [Program.listing?, Program.listing?, hlines, hlines'] at heq
  obtain rfl := join_lines_inj hends hends' (Option.some.inj heq)
  exact listingLines?_inj h h' hlines hlines'

end Program

/-! ### Generated code -/

/-- An instruction as it is generated: an argument that means nothing is zero, and a string is one of that many. -/
def Emitted.Tidy (strings : Nat) (x : Emitted) : Prop :=
  ∃ op arg, x.instr = Instr.of op arg ∧ (op.operand = .none → arg = 0) ∧
    (op.operand = .string → ∃ n < strings, arg = Int64.ofNat n)

/-- A context whose instructions are as they are generated. -/
def Context.Tidy (c : Context) : Prop := ∀ x ∈ c.code.toList, x.Tidy c.strings.size

theorem Context.Tidy.emit {c : Context} (h : c.Tidy) {op : Op} {arg : Int64} (hnone : op.operand = .none → arg = 0)
    (hstring : op.operand = .string → ∃ n < c.strings.size, arg = Int64.ofNat n) : (c.emit op arg).Tidy := by
  intro x hx
  rw [Context.toList_emit, List.mem_append, List.mem_singleton] at hx
  rcases hx with hx | rfl
  · exact h x hx
  · exact ⟨op, arg, rfl, hnone, hstring⟩

theorem Context.Tidy.withStrings {c : Context} (h : c.Tidy) {strings : Array String}
    (hle : c.strings.size ≤ strings.size) : ({ c with strings } : Context).Tidy := by
  intro x hx
  obtain ⟨op, arg, hop, hnone, hstring⟩ := h x hx
  refine ⟨op, arg, hop, hnone, fun hoperand => ?_⟩
  obtain ⟨n, hn, harg⟩ := hstring hoperand
  exact ⟨n, Nat.lt_of_lt_of_le hn hle, harg⟩

namespace Emit

open Sequence

/-- A step of the generation that keeps the context tidy. -/
def Tidies {α : Type} (x : Emit α) : Prop := ∀ c a c', x c = .ok (a, c') → c.Tidy → c'.Tidy

section Rules

variable {α β : Type} {x : Emit α} {f : α → Emit β}

theorem Tidies.bind (hx : Tidies x) (hf : ∀ a, Tidies (f a)) : Tidies (x >>= f) := by
  intro c b c' h hc
  obtain ⟨a, c₁, hxc, hfc⟩ := bind_ok.mp h
  exact hf a c₁ b c' hfc (hx c a c₁ hxc hc)

theorem Tidies.pure {a : α} : Tidies (pure a : Emit α) := by
  rintro c _ _ ⟨⟩ hc
  exact hc

theorem newLabel_tidies : Tidies newLabel := by
  rintro c _ _ ⟨⟩ hc
  exact hc

theorem setDepth_tidies (d : Nat) : Tidies (setDepth d) := by
  rintro c _ _ ⟨⟩ hc
  exact hc

theorem depth_tidies : Tidies depth := by
  rintro c _ _ ⟨⟩ hc
  exact hc

theorem place_tidies : Tidies place := by
  rintro c _ _ ⟨⟩ hc
  exact hc

theorem closeLoop_tidies (frame : LoopFrame) (first : Nat) : Tidies (closeLoop frame first) := by
  rintro c _ _ ⟨⟩ hc
  exact hc

/-- An instruction without an operand. -/
theorem emit_tidies {op : Op} (h : op.operand = .none) : Tidies (emit op 0) := by
  rintro c _ _ ⟨⟩ hc
  exact hc.emit (fun _ => rfl) fun hstring => by
    rw [h] at hstring
    cases hstring

/-- An instruction whose operand is a number, a slot or a label. -/
theorem emitArg_tidies {op : Op} {arg : Int64} (h : op.operand ∉ [.none, .string]) : Tidies (emit op arg) := by
  rintro c _ _ ⟨⟩ hc
  rw [List.mem_pair, not_or] at h
  exact hc.emit (fun hnone => absurd hnone h.1) fun hstring => absurd hstring h.2

theorem drop_tidies (n : Nat) : Tidies (drop n) := by
  induction n with
  | zero => exact .pure
  | succ n ih => exact .bind (emit_tidies rfl) fun _ => ih

theorem jumpOut_tidies (frame : LoopFrame) (label : Nat) : Tidies (jumpOut frame label) :=
  depth_tidies.bind fun _ => (drop_tidies _).bind fun _ =>
    .bind (emitArg_tidies (by decide)) fun _ => setDepth_tidies _

end Rules

mutual

/-- One case for each node: no instruction has an argument that it does not show. -/
theorem expr_tidies : ∀ (e : Expr .resolved) {frame : Option LoopFrame}, Tidies (expr frame e)
  | .int _ _, _ | .bool _ _, _ | .var _ _, _ => emitArg_tidies (by decide)
  | .unit _, _ => emit_tidies rfl
  | .string value _, _ => by
      intro c _ c' h hc
      obtain ⟨index, strings, hat, hprefixed, -, rfl⟩ := string_inv h
      have hle : c.strings.size ≤ strings.size := hprefixed.length_le
      refine (hc.withStrings hle).emit (fun hnone => absurd hnone (by decide)) fun _ => ⟨index, ?_, rfl⟩
      exact (Array.getElem?_eq_some_iff.mp hat).1
  | .assign _ value _, _ => (expr_tidies value).bind fun _ => emitArg_tidies (by decide)
  | .unary op operand _, _ => (expr_tidies operand).bind fun _ => emit_tidies (unaryOp_operand op)
  | .binary op left right _, _ =>
      (expr_tidies left).bind fun _ => (expr_tidies right).bind fun _ => emit_tidies (binaryOp_operand op _)
  | .block stmts _, _ => body_tidies stmts
  | .choice cond stmts others _, _ =>
      depth_tidies.bind fun _ => newLabel_tidies.bind fun _ => newLabel_tidies.bind fun _ =>
        (expr_tidies cond).bind fun _ => .bind (emitArg_tidies (by decide)) fun _ =>
          (body_tidies stmts).bind fun _ => .bind (emitArg_tidies (by decide)) fun _ =>
            .bind (emitArg_tidies (by decide)) fun _ => (setDepth_tidies _).bind fun _ =>
              (branches_tidies others).bind fun _ => .bind (emitArg_tidies (by decide)) fun _ =>
                setDepth_tidies _
  | .loop cond stmts _, _ =>
      newLabel_tidies.bind fun _ => newLabel_tidies.bind fun _ => depth_tidies.bind fun _ =>
        place_tidies.bind fun _ => .bind (emitArg_tidies (by decide)) fun _ =>
          (expr_tidies cond).bind fun _ => .bind (emitArg_tidies (by decide)) fun _ =>
            (body_tidies stmts).bind fun _ => .bind (emit_tidies rfl) fun _ =>
              .bind (emitArg_tidies (by decide)) fun _ => (closeLoop_tidies _ _).bind fun _ =>
                .bind (emitArg_tidies (by decide)) fun _ => (setDepth_tidies _).bind fun _ =>
                  emit_tidies rfl

theorem branches_tidies : ∀ (b : Branches .resolved) {frame : Option LoopFrame} {base finish : Nat},
    Tidies (branches frame base finish b)
  | .done, _, _, _ => emit_tidies rfl
  | .otherwise stmts, _, _, _ => body_tidies stmts
  | .orIf cond stmts others, _, _, _ =>
      newLabel_tidies.bind fun _ => (expr_tidies cond).bind fun _ =>
        .bind (emitArg_tidies (by decide)) fun _ => (body_tidies stmts).bind fun _ =>
          .bind (emitArg_tidies (by decide)) fun _ =>
            .bind (emitArg_tidies (by decide)) fun _ => (setDepth_tidies _).bind fun _ =>
              branches_tidies others

theorem body_tidies : ∀ (stmts : List (Stmt .resolved)) {frame : Option LoopFrame}, Tidies (body frame stmts)
  | [], _ => emit_tidies rfl
  | [s], _ => (stmt_tidies s).bind fun _ => .pure
  | s :: next :: rest, _ =>
      (stmt_tidies s).bind fun _ => .bind (emit_tidies rfl) fun _ => body_tidies (next :: rest)

theorem stmt_tidies : ∀ (s : Stmt .resolved) {frame : Option LoopFrame}, Tidies (stmt frame s)
  | .declare _ _ init _, _ =>
      (expr_tidies init).bind fun _ => .bind (emitArg_tidies (by decide)) fun _ => emit_tidies rfl
  | .write newline value _ _, _ =>
      (expr_tidies value).bind fun _ => .bind (emit_tidies (by cases newline <;> rfl)) fun _ => emit_tidies rfl
  | .leave _, some f => jumpOut_tidies f f.leave
  | .again _, some f => jumpOut_tidies f f.again
  | .leave _, none | .again _, none => fun _ _ _ h => by cases h
  | .expr value _, _ => expr_tidies value

end

theorem program_tidies : ∀ program : Body .resolved, Tidies (Emit.program program)
  | [] => .pure
  | s :: rest => (stmt_tidies s).bind fun _ => .bind (emit_tidies rfl) fun _ => program_tidies rest

end Emit

namespace Program

variable {p p' : Program}

/-- A program that was generated from some resolved tree; the hash of its source may have been entered since. -/
def IsGenerated (p : Program) : Prop :=
  ∃ body slots q, generate body slots = .ok q ∧ p = { q with sourceHash := p.sourceHash }

/-- A valid program in which an argument that means nothing is zero. -/
structure IsBare (p : Program) : Prop where
  valid : p.validate = .ok ()
  bare : ∀ i ∈ p.instrs.toList, i.operand = .none → i.arg = 0

theorem exists_constant? {index : Int64} (hlow : 0 ≤ index.toInt) (hlt : index.toInt < p.constants.size) :
    ∃ s, p.constant? index = some s := by
  have hin : index.toInt.toNat < p.constants.size := by omega
  rw [constant?, if_neg (Int.not_lt.mpr hlow), Array.getElem?_eq_getElem hin]
  exact ⟨_, rfl⟩

theorem IsBare.listable (h : p.IsBare) : p.Listable := by
  intro i hi
  obtain ⟨op, hop, hrange⟩ := (wellFormed_of_validate h.valid).known i hi
  refine ⟨op, hop, fun hnone => h.bare i hi ?_, fun hstring => ?_⟩
  · rw [Instr.operand, hop]
    exact hnone
  · obtain ⟨hlow, hlt⟩ := hrange p.constants.size (by rw [hstring]; rfl)
    exact exists_constant? hlow hlt

/-- A section that would be empty is always missing in a generated program. -/
theorem IsGenerated.sections (h : p.IsGenerated) :
    p.code = section? p.instrs ∧ p.strings = section? p.constants := by
  obtain ⟨body, slots, q, hgen, hp⟩ := h
  obtain ⟨c, -, -, -, rfl⟩ := generate_eq_ok_iff.mp hgen
  rw [hp]
  exact ⟨congrArg section? (getD_section? _).symm, congrArg section? (getD_section? _).symm⟩

/-- Generated programs are listed in full: an argument that means nothing is zero, and every string is there. -/
theorem IsGenerated.listable (h : p.IsGenerated) : p.Listable := by
  obtain ⟨body, slots, q, hgen, hp⟩ := h
  obtain ⟨c, hemit, -, hsmall, rfl⟩ := generate_eq_ok_iff.mp hgen
  have hinstrs : p.instrs = c.code.map (·.instr) := by
    rw [hp]
    exact getD_section? _
  have hconstants : p.constants = c.strings := by
    rw [hp]
    exact getD_section? _
  have hfinished : Finished c (Body.declarations body) := ⟨(Emit.program_lays body hemit).1, hsmall⟩
  have htidy : c.Tidy := Emit.program_tidies body {} () c hemit (List.forall_mem_nil _)
  intro i hi
  rw [hinstrs, Array.toList_map] at hi
  obtain ⟨x, hx, rfl⟩ := List.mem_map.mp hi
  obtain ⟨op, arg, hop, hnone, hstring⟩ := htidy x hx
  rw [hop]
  refine ⟨op, Instr.op?_of op arg, hnone, fun hoperand => ?_⟩
  obtain ⟨n, hn, rfl⟩ := hstring hoperand
  obtain ⟨hlow, hlt⟩ := inRange_ofNat hn hfinished.strings_le
  exact exists_constant? hlow (by rwa [hconstants])

/-- Programs that were generated, or that are valid and have no arguments without a meaning, can be listed, and the
listing determines their instructions, their string constants and their counts. Of a generated program it determines
all but the hash of the source. -/
theorem listing_determines_program (hp : p.IsGenerated ∨ p.IsBare) (hp' : p'.IsGenerated ∨ p'.IsBare) :
    (∃ text, p.listing? = some text) ∧
    (p.listing? = p'.listing? →
      p.instrs = p'.instrs ∧ p.constants = p'.constants ∧ p.labelCount = p'.labelCount ∧
        p.slotCount = p'.slotCount ∧
        (p.IsGenerated → p'.IsGenerated → p = { p' with sourceHash := p.sourceHash })) := by
  have hlist : p.Listable := hp.elim IsGenerated.listable IsBare.listable
  have hlist' : p'.Listable := hp'.elim IsGenerated.listable IsBare.listable
  refine ⟨hlist.listing?, fun heq => ?_⟩
  obtain ⟨hinstrs, hconstants, hlabels, hslots⟩ := listing?_inj hlist hlist' heq
  refine ⟨hinstrs, hconstants, hlabels, hslots, fun hgen hgen' => ?_⟩
  obtain ⟨hcode, hstrings⟩ := hgen.sections
  obtain ⟨hcode', hstrings'⟩ := hgen'.sections
  rw [hinstrs, ← hcode'] at hcode
  rw [hconstants, ← hstrings'] at hstrings
  cases p
  cases p'
  simp only [mk.injEq]
  exact ⟨hcode, hstrings, hlabels, hslots, trivial⟩

/-- A string constant that looks like a line of code, in a generated program and in one with a hash. -/
theorem listing_determines_program_lookalike :
    let body : Body .resolved := [
      .declare .string 0 (.string "a\n0001  POP ; #" .string) .unit,
      .write true (.var 0 .string) .string .unit]
    let p : Program := {
      code := some #[.of .pushString 0, .of .declare 0, .of .pushUnit 0, .of .pop 0, .of .load 0, .of .writeln 0,
        .of .pushUnit 0, .of .pop 0]
      strings := some #["a\n0001  POP ; #"]
      slotCount := 1 }
    let p' : Program := { p with sourceHash := 7 }
    p.IsGenerated ∧ p'.IsBare ∧ generate body 1 = .ok p ∧
      p.listing? = some (String.join (["; slots: 1, labels: 0, strings: 1", "; string 0 = \"a\\n0001  POP ; #\"",
        "0000  PUSH_STRING  0 ; \"a\\n0001  POP ; #\"", "0001  DECLARE      #0", "0002  PUSH_UNIT", "0003  POP",
        "0004  LOAD         #0", "0005  WRITELN", "0006  PUSH_UNIT", "0007  POP"].map (· ++ "\n"))) ∧
      (∃ text, p.listing? = some text) ∧ p.listing? = p'.listing? ∧ p.instrs = p'.instrs ∧
      p.constants = p'.constants ∧ p.labelCount = p'.labelCount ∧ p.slotCount = p'.slotCount := by
  intro body p p'
  have hgen : generate body 1 = .ok p := by decide +kernel
  have hbare : ∀ i ∈ p'.instrs.toList, i.operand = .none → i.arg = 0 := by decide
  have hp : p.IsGenerated := ⟨body, 1, p, hgen, rfl⟩
  have hp' : p'.IsBare := ⟨by decide +kernel, hbare⟩
  obtain ⟨htext, hequal⟩ := listing_determines_program (.inl hp) (.inr hp')
  obtain ⟨hinstrs, hconstants, hlabels, hslots, -⟩ := hequal rfl
  exact ⟨hp, hp', hgen, by decide +kernel, htext, rfl, hinstrs, hconstants, hlabels, hslots⟩

end Program

end BlockLang

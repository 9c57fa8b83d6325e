import BlockLang.Proofs.Loading
import BlockLang.Proofs.Release
import BlockLang.Proofs.Storage
import Mathlib.Data.List.NodupEquivFin

/-! What validation buys. A program that passes the test is well formed: its operations are known, its
arguments are in range, and each label is marked once. A machine can be made from it, and in every
state of every run each constant on the stack and in the slots is a constant of the program and there
are as many slots as it says. So nothing is looked up that is not there, and a run can only go wrong
over its operands: they may be missing or of the wrong kind. -/

namespace BlockLang

/-- Whether a fault is the doing of operands that are missing or of the wrong kind. -/
def Fault.OfOperands : Fault → Prop
  | underflow _ | wantsInt _ _ | wantsBool _ _ | wantsString _ _ | incomparable _ _ _ => True
  | _ => False

namespace Program

variable {p : Program}

/-- The argument of an operation names something that is there. -/
def InRange (p : Program) (op : Op) (arg : Int64) : Prop :=
  ∀ limit, p.limit? op.operand = some limit → 0 ≤ arg.toInt ∧ arg.toInt < limit

/-- A program whose operations are known, whose arguments are in range and whose labels are each
marked by one instruction. -/
structure WellFormed (p : Program) : Prop where
  slots : 0 ≤ p.slotCount.toInt
  labels : 0 ≤ p.labelCount.toInt
  known : ∀ i ∈ p.instrs.toList, ∃ op, i.op? = some op ∧ p.InRange op i.arg
  marked : ∀ label : Int64, 0 ≤ label.toInt → label.toInt < p.labelCount.toInt →
    p.instrs.toList.count (Instr.of .label label) = 1

/-- How often a label has been marked according to the marks. -/
def marksOf (marked : Array Bool) (label : Int64) : Nat :=
  if marked[label.toInt.toNat]? = some true then 1 else 0

/-- The marks count the instructions that mark a label. -/
def Counts (marked marked' : Array Bool) (code : List Instr) : Prop :=
  marked'.size = marked.size ∧ ∀ label : Int64, 0 ≤ label.toInt → label.toInt < marked.size →
    marksOf marked' label = marksOf marked label + code.count (Instr.of .label label)

theorem Counts.of_ne {marked : Array Bool} {i : Instr} {op : Op} (hop : i.op? = some op)
    (hne : op ≠ .label) : Counts marked marked [i] := by
  refine ⟨rfl, fun label _ _ => ?_⟩
  have hother : i ≠ Instr.of .label label := by
    rintro rfl
    rw [Instr.op?_of] at hop
    cases hop
    exact hne rfl
  rw [List.count_singleton, beq_false_of_ne hother]
  rfl

theorem Counts.of_label {marked : Array Bool} {arg : Int64} (hlow : 0 ≤ arg.toInt)
    (hnew : marked[arg.toInt.toNat]? ≠ some true) :
    Counts marked (marked.setIfInBounds arg.toInt.toNat true) [Instr.of .label arg] := by
  refine ⟨Array.size_setIfInBounds, fun label hpos hlt => ?_⟩
  rw [List.count_singleton]
  by_cases heq : arg = label
  · subst heq
    rw [beq_self_eq_true, if_pos rfl, marksOf, marksOf, if_neg hnew,
      Array.getElem?_setIfInBounds_self_of_lt (by omega), if_pos rfl]
  · have hne : Instr.of .label arg ≠ Instr.of .label label := fun h => heq (Instr.of_inj.mp h).2
    have hindex : arg.toInt.toNat ≠ label.toInt.toNat := fun h =>
      heq (Int64.toInt_inj.mp (by omega))
    rw [beq_false_of_ne hne, marksOf, marksOf, Array.getElem?_setIfInBounds_ne hindex]
    rfl

/-- A validated instruction has a known operation and an argument in range, and its label is marked. -/
theorem validateInstr_ok {index : Nat} {i : Instr} {marked marked' : Array Bool}
    (h : p.validateInstr index i marked = .ok marked') :
    (∃ op, i.op? = some op ∧ p.InRange op i.arg) ∧ Counts marked marked' [i] := by
  rw [validateInstr] at h
  split at h
  case h_1 => cases h
  case h_2 op hop =>
    split at h
    case h_1 hlimit =>
      cases h
      refine ⟨⟨op, hop, fun limit hsome => ?_⟩, .of_ne hop ?_⟩
      · rw [hlimit] at hsome
        cases hsome
      · rintro rfl
        cases hlimit
    case h_2 limit hlimit =>
      split at h
      case isTrue => cases h
      case isFalse hrange =>
        have hin : p.InRange op i.arg := by
          intro limit' hsome
          rw [hlimit] at hsome
          cases hsome
          omega
        refine ⟨⟨op, hop, hin⟩, ?_⟩
        split at h
        case isFalse hne =>
          cases h
          exact .of_ne hop hne
        case isTrue hlabel =>
          subst hlabel
          split at h
          case isTrue => cases h
          case isFalse hnew =>
            cases h
            have hcounts := Counts.of_label (hin limit hlimit).1 hnew
            rwa [← Instr.eq_of_op? hop] at hcounts

/-- Instructions are validated one by one, and no label is marked twice. -/
theorem validateFrom_ok {index : Nat} {code : List Instr} {marked marked' : Array Bool}
    (h : p.validateFrom index code marked = .ok marked') :
    (∀ i ∈ code, ∃ op, i.op? = some op ∧ p.InRange op i.arg) ∧ Counts marked marked' code := by
  induction code generalizing index marked with
  | nil =>
      cases h
      exact ⟨List.forall_mem_nil _, rfl, fun _ _ _ => rfl⟩
  | cons i code ih =>
      rw [validateFrom] at h
      cases hi : p.validateInstr index i marked with
      | error e =>
          rw [hi] at h
          cases h
      | ok between =>
          rw [hi] at h
          obtain ⟨hknown, hsize, hcount⟩ := validateInstr_ok hi
          obtain ⟨hall, hsize', hcount'⟩ := ih h
          refine ⟨List.forall_mem_cons.mpr ⟨hknown, hall⟩, hsize'.trans hsize,
            fun label hlow hlt => ?_⟩
          rw [hcount' label hlow (hsize ▸ hlt), hcount label hlow hlt, Nat.add_assoc,
            ← List.count_append]
          rfl

/-- A program that is validated has counts in range and marks all of its labels. -/
theorem validate_ok (h : p.validate = .ok ()) :
    0 ≤ p.slotCount.toInt ∧ 0 ≤ p.labelCount.toInt ∧ p.labelCount.toInt ≤ p.instrs.size ∧
      ∃ marked, p.validateFrom 0 p.instrs.toList
          (Array.replicate p.labelCount.toInt.toNat false) = .ok marked ∧
        ∀ mark ∈ marked.toList, mark = true := by
  by_cases hslots : p.slotCount.toInt < 0
  · rw [validate, if_pos hslots] at h
    cases h
  by_cases hlabels : p.labelCount.toInt < 0
  · rw [validate, if_neg hslots, if_pos hlabels] at h
    cases h
  by_cases hmany : (p.instrs.size : Int) < p.labelCount.toInt
  · rw [validate, if_neg hslots, if_neg hlabels, if_pos hmany] at h
    cases h
  refine ⟨by omega, by omega, by omega, ?_⟩
  rw [validate, if_neg hslots, if_neg hlabels, if_neg hmany] at h
  beta_reduce at h
  cases hfrom : p.validateFrom 0 p.instrs.toList
    (Array.replicate p.labelCount.toInt.toNat false) with
  | error e =>
      rw [hfrom] at h
      cases h
  | ok marked =>
      simp only [hfrom, bind, Except.bind] at h
      split at h
      case h_1 => cases h
      case h_2 hnone =>
        refine ⟨marked, rfl, fun mark hmark => ?_⟩
        simpa using List.findIdx?_eq_none_iff.mp hnone mark hmark

/-- What validation accepts is well formed. -/
theorem wellFormed_of_validate (h : p.validate = .ok ()) : p.WellFormed := by
  obtain ⟨hslots, hlabels, -, marked, hfrom, htrue⟩ := validate_ok h
  obtain ⟨hknown, hsize, hcount⟩ := validateFrom_ok hfrom
  rw [Array.size_replicate] at hsize hcount
  refine ⟨hslots, hlabels, hknown, fun label hlow hlt => ?_⟩
  have hin : label.toInt.toNat < p.labelCount.toInt.toNat := by omega
  have hbefore : marksOf (Array.replicate p.labelCount.toInt.toNat false) label = 0 := by
    rw [marksOf, Array.getElem?_replicate, if_pos hin]
    rfl
  have hafter : marksOf marked label = 1 := by
    have hmark : label.toInt.toNat < marked.size := by omega
    rw [marksOf, Array.getElem?_eq_getElem hmark,
      htrue _ (Array.mem_toList_iff.mpr (Array.getElem_mem hmark)), if_pos rfl]
  have hmarks := hcount label hlow (by omega)
  omega

theorem validateInstr_of_known (index : Nat) {i : Instr} {marked : Array Bool} {op : Op}
    (hop : i.op? = some op) (hin : p.InRange op i.arg)
    (hnew : op = .label → marked[i.arg.toInt.toNat]? ≠ some true) :
    ∃ marked', p.validateInstr index i marked = .ok marked' := by
  simp only [validateInstr, hop]
  cases hlimit : p.limit? op.operand with
  | none => exact ⟨marked, rfl⟩
  | some limit =>
      obtain ⟨hlow, hlt⟩ := hin limit hlimit
      simp only
      rw [if_neg (by omega)]
      by_cases hlabel : op = .label
      · rw [if_pos hlabel, if_neg (hnew hlabel)]
        exact ⟨_, rfl⟩
      · rw [if_neg hlabel]
        exact ⟨_, rfl⟩

/-- Instructions pass one after the other as long as none of them marks a label again. -/
theorem validateFrom_of_known (index : Nat) {code : List Instr} {marked : Array Bool}
    (hknown : ∀ i ∈ code, ∃ op, i.op? = some op ∧ p.InRange op i.arg)
    (hsize : (marked.size : Int) = p.labelCount.toInt)
    (honce : ∀ label : Int64, 0 ≤ label.toInt → label.toInt < marked.size →
      marksOf marked label + code.count (Instr.of .label label) ≤ 1) :
    ∃ marked', p.validateFrom index code marked = .ok marked' := by
  induction code generalizing index marked with
  | nil => exact ⟨marked, rfl⟩
  | cons i code ih =>
      obtain ⟨⟨op, hop, hin⟩, hrest⟩ := List.forall_mem_cons.mp hknown
      have hnew : op = .label → marked[i.arg.toInt.toNat]? ≠ some true := by
        rintro rfl hmarked
        obtain ⟨hlow, hlt⟩ := hin _ rfl
        have hle := honce i.arg hlow (by omega)
        rw [marksOf, if_pos hmarked, ← Instr.eq_of_op? hop, List.count_cons_self] at hle
        omega
      obtain ⟨between, hi⟩ := validateInstr_of_known index hop hin hnew
      obtain ⟨-, hsame, hcount⟩ := validateInstr_ok hi
      obtain ⟨marked', hfrom⟩ := ih (index + 1) hrest (hsame ▸ hsize) fun label hlow hlt => by
        have hle := honce label hlow (by omega)
        rw [hcount label hlow (by omega), Nat.add_assoc, ← List.count_append]
        exact hle
      refine ⟨marked', ?_⟩
      rw [validateFrom, hi]
      exact hfrom

/-- Each label takes an instruction of its own. -/
theorem labels_le_of_count (hmarked : ∀ label : Int64, 0 ≤ label.toInt →
    label.toInt < p.labelCount.toInt → p.instrs.toList.count (Instr.of .label label) = 1) :
    p.labelCount.toInt ≤ p.instrs.size := by
  have hmax := p.labelCount.toInt_lt
  let wanted := (List.range p.labelCount.toInt.toNat).map fun l => Instr.of .label (Int64.ofNat l)
  have hint : ∀ l < p.labelCount.toInt.toNat, (Int64.ofNat l).toInt = l := fun l hl =>
    Int64.toInt_ofNat_of_lt (by omega)
  have hnodup : wanted.Nodup := by
    refine List.Nodup.map_on (fun a ha b hb heq => ?_) List.nodup_range
    have hab := congrArg Int64.toInt (Instr.of_inj.mp heq).2
    rw [hint a (List.mem_range.mp ha), hint b (List.mem_range.mp hb)] at hab
    omega
  have hsub : wanted ⊆ p.instrs.toList := by
    intro i hi
    obtain ⟨l, hl, rfl⟩ := List.mem_map.mp hi
    have hl := List.mem_range.mp hl
    have hvalue := hint l hl
    have hcount := hmarked (Int64.ofNat l) (by omega) (by omega)
    exact List.count_pos_iff.mp (by omega)
  have hlength := (List.subperm_of_subset hnodup hsub).length_le
  simp only [wanted, List.length_map, List.length_range, Array.length_toList] at hlength
  omega

/-- A well-formed program is validated: each label is marked by an instruction, so every mark is set in the end. -/
theorem WellFormed.validate (h : p.WellFormed) : p.validate = .ok () := by
  have hslots := h.slots
  have hlabels := h.labels
  have hmany := labels_le_of_count h.marked
  have hbefore : ∀ label : Int64,
      marksOf (Array.replicate p.labelCount.toInt.toNat false) label = 0 := by
    intro label
    rw [marksOf, Array.getElem?_replicate]
    split <;> simp
  have hpasses : ∃ marked, p.validateFrom 0 p.instrs.toList
      (Array.replicate p.labelCount.toInt.toNat false) = .ok marked := by
    refine validateFrom_of_known 0 h.known (by rw [Array.size_replicate]; omega) ?_
    intro label hlow hlt
    rw [Array.size_replicate] at hlt
    have hzero := hbefore label
    have hone := h.marked label hlow (by omega)
    omega
  obtain ⟨marked, hfrom⟩ := hpasses
  obtain ⟨-, hsize, hcount⟩ := validateFrom_ok hfrom
  rw [Array.size_replicate] at hsize hcount
  have hset : marked.toList.findIdx? (· == false) = none := by
    refine List.findIdx?_eq_none_iff.mpr fun mark hmark => ?_
    obtain ⟨l, hl, rfl⟩ := Array.mem_iff_getElem.mp (Array.mem_toList_iff.mp hmark)
    have hmax := p.labelCount.toInt_lt
    have hint : (Int64.ofNat l).toInt = l := Int64.toInt_ofNat_of_lt (by omega)
    have hmarks := hcount (Int64.ofNat l) (by omega) (by omega)
    rw [hbefore, h.marked _ (by omega) (by omega), marksOf, hint, Int.toNat_natCast,
      Array.getElem?_eq_getElem hl] at hmarks
    by_cases htrue : marked[l] = true
    · simp [htrue]
    · simp [htrue] at hmarks
  rw [Program.validate, if_neg (by omega), if_neg (by omega), if_neg (by omega)]
  simp only [hfrom, bind, Except.bind, hset]
  rfl

/-! ### What validation accepts -/

theorem inRange_iff {op : Op} {arg : Int64} : p.InRange op arg ↔
    (op.operand = .slot → 0 ≤ arg.toInt ∧ arg.toInt < p.slotCount.toInt) ∧
    (op.operand = .string → 0 ≤ arg.toInt ∧ arg.toInt < p.constants.size) ∧
    (op.operand = .label → 0 ≤ arg.toInt ∧ arg.toInt < p.labelCount.toInt) := by
  rw [InRange]
  cases op.operand <;> simp [limit?]

/-- The instruction at a place marks a label. -/
def MarksAt (p : Program) (label : Int) (index : Nat) : Prop :=
  ∃ i, p.instrs[index]? = some i ∧ i.op? = some .label ∧ i.arg.toInt = label

theorem marksAt_iff {label : Int64} {index : Nat} : p.MarksAt label.toInt index ↔
    p.instrs.toList[index]? = some (Instr.of .label label) := by
  rw [MarksAt, Array.getElem?_toList]
  constructor
  · rintro ⟨i, hi, hop, harg⟩
    rw [hi, Instr.eq_of_op? hop, Int64.toInt_inj.mp harg]
  · intro hi
    exact ⟨_, hi, Instr.op?_of .label label, rfl⟩

/-- An instruction occurs once if it stands at exactly one place. -/
theorem count_eq_one_iff {code : List Instr} {i : Instr} :
    code.count i = 1 ↔ ∃! index : Nat, code[index]? = some i := by
  constructor
  · intro hone
    have hmem : i ∈ code := List.count_pos_iff.mp (by omega)
    obtain ⟨index, hindex⟩ := List.mem_iff_getElem?.mp hmem
    have hlast : ∀ {a b : Nat}, code[a]? = some i → code[b]? = some i → ¬ a < b := by
      intro a b ha hb hlt
      obtain ⟨hla, ha⟩ := List.getElem?_eq_some_iff.mp ha
      obtain ⟨hlb, hb⟩ := List.getElem?_eq_some_iff.mp hb
      have htwo := List.duplicate_iff_two_le_count.mp
        (List.duplicate_iff_exists_distinct_get.mpr ⟨⟨a, hla⟩, ⟨b, hlb⟩, hlt, ha.symm, hb.symm⟩)
      omega
    refine ⟨index, hindex, fun other hother => ?_⟩
    have hle := hlast hindex hother
    have hge := hlast hother hindex
    omega
  · rintro ⟨index, hindex, honly⟩
    have hpos : 0 < code.count i := List.count_pos_iff.mpr (List.mem_of_getElem? hindex)
    by_contra hone
    obtain ⟨a, b, hlt, ha, hb⟩ := List.duplicate_iff_exists_distinct_get.mp
      (List.duplicate_iff_two_le_count.mpr (show 2 ≤ code.count i by omega))
    have hsame : (a : Nat) = b :=
      (honly a (List.getElem?_eq_some_iff.mpr ⟨a.isLt, ha.symm⟩)).trans
        (honly b (List.getElem?_eq_some_iff.mpr ⟨b.isLt, hb.symm⟩)).symm
    exact absurd hsame (Nat.ne_of_lt hlt)

/-- Counting the instructions that mark a label and looking for their place come to the same. -/
theorem forall_count_iff : (∀ label : Int64, 0 ≤ label.toInt → label.toInt < p.labelCount.toInt →
      p.instrs.toList.count (Instr.of .label label) = 1) ↔
    ∀ label : Int, 0 ≤ label → label < p.labelCount.toInt → ∃! index, p.MarksAt label index := by
  constructor
  · intro hcount label hlow hlt
    have hmax := p.labelCount.toInt_lt
    have hvalue : (Int64.ofInt label).toInt = label := Int64.toInt_ofInt_of_le (by omega) (by omega)
    have hone := count_eq_one_iff.mp (hcount (.ofInt label) (by omega) (by omega))
    simpa only [← marksAt_iff, hvalue] using hone
  · intro hplace label hlow hlt
    refine count_eq_one_iff.mpr ?_
    simpa only [marksAt_iff] using hplace label.toInt hlow hlt

/-- The table of marks keeps its size, so a label in range is always one of its indices. -/
theorem lt_size_of_validateFrom {index : Nat} {code : List Instr} {marked : Array Bool}
    (h : p.validateFrom index code (Array.replicate p.labelCount.toInt.toNat false) = .ok marked)
    {label : Int} (hlow : 0 ≤ label) (hlt : label < p.labelCount.toInt) :
    label.toNat < marked.size := by
  obtain ⟨-, hsize, -⟩ := validateFrom_ok h
  rw [Array.size_replicate] at hsize
  omega

/-- Validation accepts exactly the programs with counts that are not negative, with known operations,
with operands in range and with one mark for each label. There are then no more labels than
instructions, so nothing well formed is refused for having too many; and whatever instructions have
passed, an operand of a mark that is in range is an index of the table of marks. -/
theorem validate_eq_ok_iff (p : Program) :
    (p.validate = .ok () ↔
      0 ≤ p.slotCount.toInt ∧ 0 ≤ p.labelCount.toInt ∧
      (∀ i ∈ p.instrs.toList, ∃ op, i.op? = some op ∧
        (op.operand = .slot → 0 ≤ i.arg.toInt ∧ i.arg.toInt < p.slotCount.toInt) ∧
        (op.operand = .string → 0 ≤ i.arg.toInt ∧ i.arg.toInt < p.constants.size) ∧
        (op.operand = .label → 0 ≤ i.arg.toInt ∧ i.arg.toInt < p.labelCount.toInt)) ∧
      ∀ label : Int, 0 ≤ label → label < p.labelCount.toInt → ∃! index, p.MarksAt label index) ∧
    ((∀ label : Int, 0 ≤ label → label < p.labelCount.toInt → ∃! index, p.MarksAt label index) →
      p.labelCount.toInt ≤ p.instrs.size) ∧
    ∀ before i behind marked, p.instrs.toList = before ++ i :: behind →
      p.validateFrom 0 before (Array.replicate p.labelCount.toInt.toNat false) = .ok marked →
      i.op? = some .label → 0 ≤ i.arg.toInt → i.arg.toInt < p.labelCount.toInt →
      i.arg.toInt.toNat < marked.size := by
  refine ⟨⟨fun h => ?_, fun h => ?_⟩, fun h => labels_le_of_count (forall_count_iff.mpr h),
    fun _ _ _ _ _ hfrom _ => lt_size_of_validateFrom hfrom⟩
  · have hwell := wellFormed_of_validate h
    refine ⟨hwell.slots, hwell.labels, fun i hi => ?_, forall_count_iff.mp hwell.marked⟩
    obtain ⟨op, hop, hin⟩ := hwell.known i hi
    exact ⟨op, hop, inRange_iff.mp hin⟩
  · obtain ⟨hslots, hlabels, hknown, hplace⟩ := h
    refine WellFormed.validate ⟨hslots, hlabels, fun i hi => ?_, forall_count_iff.mpr hplace⟩
    obtain ⟨op, hop, hfits⟩ := hknown i hi
    exact ⟨op, hop, inRange_iff.mpr hfits⟩

end Program

/-- A machine whose code has known operations and arguments in range, and whose labels are placed. -/
structure Machine.Ready (m : Machine) : Prop where
  known : ∀ i ∈ m.program.instrs.toList, ∃ op, i.op? = some op ∧ m.program.InRange op i.arg
  target : ∀ label : Int64, 0 ≤ label.toInt → label.toInt < m.program.labelCount.toInt →
    ∃ place, Plain.target? m label = some place

/-- A value that is no constant, or a constant that the program has. -/
def Value.Known (p : Program) : Value → Prop
  | const index => ∃ text, p.constant? index = some text
  | _ => True

/-- A state with known values only and as many slots as the program says. -/
structure MachineState.Known (p : Program) (s : MachineState) : Prop where
  stack : ∀ v ∈ s.stack, v.Known p
  slots : ∀ v ∈ s.slots, v.Known p
  size : s.slots.size = p.slotCount.toInt.toNat

theorem MachineState.Known.of_empty {p : Program} {s : MachineState} (hstack : s.stack = [])
    (hslots : ∀ v ∈ s.slots, v = .unit) (hsize : s.slots.size = p.slotCount.toInt.toNat) :
    s.Known p := by
  refine ⟨?_, fun v hv => ?_, hsize⟩
  · rw [hstack]
    exact List.forall_mem_nil _
  · rw [hslots v hv]
    trivial

/-- A well-formed program can be loaded, and each label's place is the one instruction that marks it. -/
theorem Program.WellFormed.new {p : Program} (hp : p.WellFormed)
    (hslots : p.slotCount.toInt ≤ tableLimit) (hlabels : p.labelCount.toInt ≤ tableLimit) :
    ∃ m start, Machine.new p = .ok (m, start) ∧ m.program = p ∧ m.Ready ∧ start.Known p := by
  have hslots₀ := hp.slots
  have hlabels₀ := hp.labels
  have hrange : ∀ i ∈ p.instrs.toList, i.op? = some .label → 0 ≤ i.arg.toInt ∧
      i.arg.toInt < (Array.replicate p.labelCount.toInt.toNat (none : Option Nat)).size := by
    intro i hi hop
    obtain ⟨op, hop', hin⟩ := hp.known i hi
    rw [hop] at hop'
    cases hop'
    obtain ⟨hlow, hlt⟩ := hin _ rfl
    rw [Array.size_replicate]
    omega
  obtain ⟨labels, hmark, -, hplace⟩ := Machine.markLabels_ok p.instrs.toList 0 _ hrange
  have hnew : Machine.new p =
      .ok (⟨p, labels⟩, { slots := Array.replicate p.slotCount.toInt.toNat .unit }) := by
    rw [Machine.new, if_neg (by omega), if_neg (by omega), hmark]
  refine ⟨_, _, hnew, rfl, ⟨hp.known, fun label hlow hlt => ?_⟩, .of_empty rfl ?_ ?_⟩
  · have hcount := hp.marked label hlow hlt
    have hmem : Instr.of .label label ∈ p.instrs.toList :=
      List.count_pos_iff.mp (by rw [hcount]; exact Nat.zero_lt_one)
    obtain ⟨k, hk⟩ := List.mem_iff_getElem?.mp hmem
    have hplaced := hplace k _ hk (Instr.op?_of _ _) (Nat.le_of_eq hcount)
    refine ⟨0 + k, ?_⟩
    rw [Plain.target?, Plain.index?, if_neg (by omega)]
    show (labels[label.toInt.toNat]?).join = _
    rw [Instr.arg_of] at hplaced
    rw [hplaced]
    rfl
  · intro v hv
    exact (Array.mem_replicate.mp hv).2
  · exact Array.size_replicate

/-! ### Pieces of an instruction -/

namespace Exec

/-- A piece of an instruction that keeps values known, yields what it should, and goes wrong only
over its operands or the heap. -/
def Keeps {α : Type} (p : Program) (yields : α → Prop) (x : Exec α) : Prop :=
  ∀ s : MachineState, s.Known p →
    match x s with
    | .ok (a, t) => yields a ∧ t.Known p
    | .error f => f.OfOperands ∨ f.OfHeap

variable {α β : Type} {p : Program} {yields : α → Prop} {x : Exec α} {m : Machine}

/-- What two pieces of an instruction keep, the two in a row keep. -/
theorem Keeps.bind {f : α → Exec β} {yields' : β → Prop} (hx : Keeps p yields x)
    (hf : ∀ a, yields a → Keeps p yields' (f a)) : Keeps p yields' (x >>= f) := by
  intro s hs
  have hxs := hx s hs
  rw [bind_apply]
  cases hrun : x s with
  | error e =>
      rw [hrun] at hxs
      exact hxs
  | ok r =>
      obtain ⟨a, t⟩ := r
      rw [hrun] at hxs
      exact hf a hxs.1 t hxs.2

theorem Keeps.pure {a : α} (ha : yields a) : Keeps p yields (pure a) :=
  fun _ hs => ⟨ha, hs⟩

theorem Keeps.get : Keeps p (fun _ => True) get := fun _ hs => ⟨trivial, hs⟩

theorem Keeps.fault {f : Fault} (hf : f.OfOperands) : Keeps p yields (fault f) :=
  fun _ _ => .inl hf

theorem push_keeps {v : Value} (hv : v.Known p) : Keeps p (fun _ => True) (push v) :=
  fun _ hs => ⟨trivial, List.forall_mem_cons.mpr ⟨hv, hs.stack⟩, hs.slots, hs.size⟩

theorem pushNew_keeps (text : String) : Keeps p (fun _ => True) (pushNew text) :=
  fun _ hs => ⟨trivial, List.forall_mem_cons.mpr ⟨trivial, hs.stack⟩, hs.slots, hs.size⟩

theorem pop_keeps : Keeps p (Value.Known p) pop := by
  intro s hs
  rw [pop]
  have hstack := hs.stack
  cases hst : s.stack with
  | nil => exact .inl trivial
  | cons v rest =>
      rw [hst, List.forall_mem_cons] at hstack
      exact ⟨hstack.1, hstack.2, hs.slots, hs.size⟩

theorem top_keeps : Keeps p (Value.Known p) top := by
  intro s hs
  rw [top]
  cases hst : s.stack with
  | nil => exact .inl trivial
  | cons v rest => exact ⟨hs.stack v (hst ▸ List.mem_cons_self), hs⟩

theorem popInt_keeps : Keeps p (fun _ => True) popInt := by
  refine pop_keeps.bind fun v _ => ?_
  cases v with
  | int n => exact .pure trivial
  | _ => exact .bind .get fun _ _ => .fault trivial

theorem popBool_keeps : Keeps p (fun _ => True) popBool := by
  refine pop_keeps.bind fun v _ => ?_
  cases v with
  | bool b => exact .pure trivial
  | _ => exact .bind .get fun _ _ => .fault trivial

theorem retain_keeps (v : Value) : Keeps p (fun _ => True) (retain v) := by
  cases v with
  | heap id =>
      intro s hs
      simp only [retain]
      cases s.heap.incr? id with
      | none => exact .inr trivial
      | some heap => exact ⟨trivial, hs.stack, hs.slots, hs.size⟩
  | _ => exact .pure trivial

theorem release_keeps (v : Value) : Keeps p (fun _ => True) (release v) := by
  cases v with
  | heap id =>
      intro s hs
      simp only [release]
      cases s.heap.decr? id with
      | none => exact .inr trivial
      | some heap => exact ⟨trivial, hs.stack, hs.slots, hs.size⟩
  | _ => exact .pure trivial

theorem textOf_keeps {v : Value} (hv : v.Known p) : Keeps p (fun _ => True) (textOf p v) := by
  intro s hs
  cases v with
  | const index =>
      obtain ⟨text, htext⟩ := hv
      simp only [textOf, htext]
      exact ⟨trivial, hs⟩
  | heap id =>
      simp only [textOf]
      cases s.heap.find? id with
      | none => exact .inr trivial
      | some r => exact ⟨trivial, hs⟩
  | _ => exact .inl trivial

theorem shown_keeps {v : Value} (hv : v.Known p) : Keeps p (fun _ => True) (shown p v) := by
  rw [shown]
  split
  · exact textOf_keeps hv
  · exact .pure trivial

theorem slot_keeps {arg : Int64} (hlow : 0 ≤ arg.toInt) (hlt : arg.toInt < p.slotCount.toInt) :
    Keeps p (fun r => r.2.Known p) (slot arg) := by
  intro s hs
  have hsize := hs.size
  have hin : arg.toInt.toNat < s.slots.size := by omega
  rw [slot_apply, Plain.index?, if_neg (by omega)]
  simp only [Array.getElem?_eq_getElem hin]
  exact ⟨hs.slots _ (Array.getElem_mem hin), hs⟩

theorem setSlot_keeps (index : Nat) {v : Value} (hv : v.Known p) :
    Keeps p (fun _ => True) (setSlot index v) := by
  intro s hs
  refine ⟨trivial, hs.stack, fun w hw => ?_, Array.size_setIfInBounds.trans hs.size⟩
  rcases Array.mem_or_eq_of_mem_setIfInBounds hw with hw | rfl
  · exact hs.slots w hw
  · exact hv

theorem print_keeps (text : String) : Keeps p (fun _ => True) (print text) :=
  fun _ hs => ⟨trivial, hs.stack, hs.slots, hs.size⟩

theorem jump_keeps {arg : Int64} {place : Nat} (h : Plain.target? m arg = some place) :
    Keeps p (fun _ => True) (jump m arg) := by
  intro s hs
  have happly := jump_apply m arg s
  rw [h] at happly
  rw [happly]
  exact ⟨trivial, hs.stack, hs.slots, hs.size⟩

theorem arith_keeps (f : Int64 → Int64 → Int64) : Keeps p (fun _ => True) (arith f) :=
  popInt_keeps.bind fun _ _ => popInt_keeps.bind fun _ _ => push_keeps trivial

theorem compare_keeps (f : Int64 → Int64 → Bool) : Keeps p (fun _ => True) (compare f) :=
  popInt_keeps.bind fun _ _ => popInt_keeps.bind fun _ _ => push_keeps trivial

theorem logic_keeps (f : Bool → Bool → Bool) : Keeps p (fun _ => True) (logic f) :=
  popBool_keeps.bind fun _ _ => popBool_keeps.bind fun _ _ => push_keeps trivial

theorem divide_keeps (f : Int64 → Int64 → Int64) (cause : RuntimeCause) :
    Keeps p (fun _ => True) (divide f cause) := by
  refine popInt_keeps.bind fun b _ => popInt_keeps.bind fun a _ => ?_
  split
  · exact fun _ hs => ⟨trivial, hs⟩
  · exact .bind (push_keeps trivial) fun _ _ => .pure trivial

theorem equality_keeps (wanted : Bool) : Keeps p (fun _ => True) (equality wanted) := by
  refine pop_keeps.bind fun b _ => pop_keeps.bind fun a _ => ?_
  cases equal? a b with
  | some same => exact push_keeps trivial
  | none => exact .bind .get fun _ _ => .fault trivial

theorem stringify_keeps : Keeps p (fun _ => True) stringify := by
  refine pop_keeps.bind fun v hv => ?_
  cases v with
  | const index | heap id => exact push_keeps hv
  | _ => exact pushNew_keeps _

theorem popTexts_keeps : Keeps p (fun _ => True) (popTexts p) :=
  pop_keeps.bind fun b hb => pop_keeps.bind fun a ha =>
    (textOf_keeps ha).bind fun _ _ => (textOf_keeps hb).bind fun _ _ =>
      (release_keeps a).bind fun _ _ => (release_keeps b).bind fun _ _ => .pure trivial

theorem write_keeps (behind : String) : Keeps p (fun _ => True) (write p behind) :=
  pop_keeps.bind fun v hv => (shown_keeps hv).bind fun _ _ =>
    (print_keeps _).bind fun _ _ => release_keeps v

/-- One case for each operation: what its argument names is there. -/
theorem instr_keeps (hm : m.Ready) {i : Instr} (hi : i ∈ m.program.instrs.toList) :
    Keeps m.program (fun _ => True) (instr m i) := by
  obtain ⟨op, hop, hin⟩ := hm.known i hi
  have done : ∀ _ : Unit, True → Keeps m.program (fun _ => True)
      (pure none : Exec (Option RuntimeError)) := fun _ _ => .pure trivial
  rw [instr, hop]
  cases op with
  | pushInt | pushBool | pushUnit => exact .bind (push_keeps trivial) done
  | pushString =>
      obtain ⟨hlow, hlt⟩ := hin _ rfl
      have hconst : (Value.const i.arg).Known m.program := by
        have hsize : i.arg.toInt.toNat < m.program.constants.size := by omega
        refine ⟨m.program.constants[i.arg.toInt.toNat], ?_⟩
        rw [Program.constant?, if_neg (by omega), Array.getElem?_eq_getElem hsize]
      exact (push_keeps hconst).bind done
  | pop => exact pop_keeps.bind fun v _ => (release_keeps v).bind done
  | load =>
      obtain ⟨hlow, hlt⟩ := hin _ rfl
      exact (slot_keeps hlow hlt).bind fun v hv => (retain_keeps v.2).bind fun _ _ =>
        (push_keeps hv).bind done
  | declare =>
      obtain ⟨hlow, hlt⟩ := hin _ rfl
      exact pop_keeps.bind fun _ hv => (slot_keeps hlow hlt).bind fun w _ =>
        (release_keeps w.2).bind fun _ _ => (setSlot_keeps _ hv).bind done
  | assign =>
      obtain ⟨hlow, hlt⟩ := hin _ rfl
      exact top_keeps.bind fun v hv => (retain_keeps v).bind fun _ _ =>
        (slot_keeps hlow hlt).bind fun w _ => (release_keeps w.2).bind fun _ _ =>
          (setSlot_keeps _ hv).bind done
  | neg => exact popInt_keeps.bind fun _ _ => .bind (push_keeps trivial) done
  | not => exact popBool_keeps.bind fun _ _ => .bind (push_keeps trivial) done
  | stringify => exact stringify_keeps.bind done
  | add | sub | mul => exact (arith_keeps _).bind done
  | div | rem => exact divide_keeps _ _
  | and | or => exact (logic_keeps _).bind done
  | eq | ne => exact (equality_keeps _).bind done
  | lt | le | gt | ge => exact (compare_keeps _).bind done
  | strEq | strNe => exact popTexts_keeps.bind fun _ _ => .bind (push_keeps trivial) done
  | append => exact popTexts_keeps.bind fun _ _ => (pushNew_keeps _).bind done
  | write | writeln => exact (write_keeps _).bind done
  | label => exact .pure trivial
  | jump =>
      obtain ⟨hlow, hlt⟩ := hin _ rfl
      obtain ⟨place, hplace⟩ := hm.target i.arg hlow hlt
      exact (jump_keeps hplace).bind done
  | jumpFalse =>
      obtain ⟨hlow, hlt⟩ := hin _ rfl
      obtain ⟨place, hplace⟩ := hm.target i.arg hlow hlt
      refine popBool_keeps.bind fun b _ => ?_
      cases b with
      | true => exact .pure trivial
      | false => exact (jump_keeps hplace).bind done

end Exec

/-- What steps lead to: a state with known values, or a fault over operands or the heap. -/
def StepResult.Known (p : Program) : StepResult → Prop
  | running s | ended _ s => s.Known p
  | faulty f => f.OfOperands ∨ f.OfHeap

namespace Machine

variable {m : Machine} {s start : MachineState}

/-- A step of a ready machine keeps every value known to the program. -/
theorem step_known (hm : m.Ready) (hs : s.Known m.program) : (m.step s).Known m.program := by
  rw [step]
  split
  case h_1 => exact hs
  case h_2 i hi =>
    have hrun := Exec.instr_keeps hm (List.mem_of_getElem? (Array.getElem?_toList ▸ hi)) s hs
    simp only [StateT.run]
    cases hex : Exec.instr m i s with
    | error f =>
        rw [hex] at hrun
        exact hrun
    | ok r =>
        obtain ⟨e, t⟩ := r
        rw [hex] at hrun
        cases e with
        | none => exact ⟨hrun.2.stack, hrun.2.slots, hrun.2.size⟩
        | some e => exact hrun.2

/-- Values stay known to the program all along a run. -/
theorem loop_known (hm : m.Ready) (hs : s.Known m.program) (n : Nat) :
    (m.loop n s).Known m.program := by
  induction n generalizing s with
  | zero => exact hs
  | succ n ih =>
      have hstep := step_known hm hs
      rw [loop]
      cases hr : m.step s with
      | running s' =>
          rw [hr] at hstep
          exact ih hstep
      | ended e s' | faulty f =>
          rw [hr] at hstep
          exact hstep

/-- What a step keeps, a run keeps; and a machine that is run again begins with nothing on its stack
and in its slots. -/
theorem Reachable.known (hm : m.Ready) (hcounted : start.Counted []) (hstart : start.Known m.program)
    (hs : m.Reachable start s) : s.Known m.program := by
  induction hs with
  | start => exact hstart
  | step _ hstep ih =>
      have hknown := step_known hm ih
      rw [hstep] at hknown
      exact hknown
  | again hreach hended hhalt ih =>
      have hknown := step_known hm ih
      rw [hended] at hknown
      obtain ⟨h, hh, -, -⟩ := halt_counted (ended_counted (hreach.counted hcounted) hended)
      rw [hh] at hhalt
      cases hhalt
      refine .of_empty rfl (fun v hv => ?_) (Array.size_map.trans hknown.size)
      obtain ⟨_, _, rfl⟩ := Array.mem_map.mp hv
      rfl

/-- A machine can be made from every valid program whose slots and labels fit into memory; the labels
of a program that was read from bytes always do. Whatever state the machine gets into, a step or a
run goes wrong only over operands that are missing or of the wrong kind. -/
theorem ofOperands_of_validate {p : Program} (hslots : p.slotCount.toInt ≤ tableLimit)
    (hp : (p.validate = .ok () ∧ p.labelCount.toInt ≤ tableLimit) ∨
      ∃ bytes, Program.ofBytes bytes = .ok p) :
    ∃ m start, new p = .ok (m, start) ∧ ∀ s, m.Reachable start s →
      (∀ f, m.step s = .faulty f → f.OfOperands) ∧
      ∀ trace leakCheck limit f,
        (m.run trace leakCheck limit s).ending = .faulty f → f.OfOperands := by
  obtain ⟨hvalid, hlabels⟩ : p.validate = .ok () ∧ p.labelCount.toInt ≤ tableLimit := by
    rcases hp with hp | ⟨bytes, hbytes⟩
    · exact hp
    · obtain ⟨hvalid, hcode, -⟩ := Program.of_ofBytes hbytes
      obtain ⟨-, -, hfew, -⟩ := Program.validate_ok hvalid
      have hlimit : (Cbor.maxElements : Int) ≤ tableLimit := by decide
      exact ⟨hvalid, by omega⟩
  obtain ⟨m, start, hnew, rfl, hready, hknown⟩ :=
    (Program.wellFormed_of_validate hvalid).new hslots hlabels
  refine ⟨m, start, hnew, fun s hs => ?_⟩
  have hcounted := hs.counted (new_counted hnew)
  have hs := hs.known hready (new_counted hnew) hknown
  refine ⟨fun f hf => ?_, fun trace leakCheck limit f hf => ?_⟩
  · have hstep := step_known hready hs
    have hheap := step_counted (m := m) hcounted
    rw [hf] at hstep hheap
    exact hstep.resolve_right hheap.1
  · obtain ⟨hfaulty, hheap⟩ := loop_of_run_faulty hcounted hf
    have hloop := loop_known hready hs limit
    rw [hfaulty] at hloop
    exact hloop.resolve_right hheap

/-- A valid program that keeps a constant in a slot and then asks for two strings where there is
one. -/
theorem ofOperands_of_validate_underflow :
    let p : Program :=
      { code := some #[.of .pushString 0, .of .declare 0, .of .label 0, .of .load 0, .of .append 0]
        strings := some #["a"]
        labelCount := 1
        slotCount := 1 }
    let s : MachineState := { ip := 4, stack := [.const 0], slots := #[.const 0] }
    p.validate = .ok () ∧ ∃ m start, new p = .ok (m, start) ∧ m.Reachable start s ∧
      m.step s = .faulty (.underflow 4) ∧ (Fault.underflow 4).OfOperands := by
  intro p s
  have hvalid : p.validate = .ok () := rfl
  obtain ⟨m, start, hnew, hall⟩ := ofOperands_of_validate (p := p) (by decide)
    (.inl ⟨hvalid, by decide⟩)
  obtain ⟨rfl, rfl⟩ : ⟨p, #[some 2]⟩ = m ∧ { slots := #[.unit] } = start := by
    have heq : new p = .ok (⟨p, #[some 2]⟩, { slots := #[.unit] }) := rfl
    rw [heq] at hnew
    cases hnew
    exact ⟨rfl, rfl⟩
  have hpushed : Reachable ⟨p, #[some 2]⟩ { slots := #[.unit] }
      { ip := 1, stack := [.const 0], slots := #[.unit] } := .step .start rfl
  have hkept : Reachable ⟨p, #[some 2]⟩ { slots := #[.unit] }
      { ip := 2, slots := #[.const 0] } := .step hpushed rfl
  have hmarked : Reachable ⟨p, #[some 2]⟩ { slots := #[.unit] }
      { ip := 3, slots := #[.const 0] } := .step hkept rfl
  have hs : Reachable ⟨p, #[some 2]⟩ { slots := #[.unit] } s := .step hmarked rfl
  have hfault : step ⟨p, #[some 2]⟩ s = .faulty (.underflow 4) := rfl
  exact ⟨hvalid, _, _, hnew, hs, hfault, (hall s hs).1 _ hfault⟩

end Machine

end BlockLang

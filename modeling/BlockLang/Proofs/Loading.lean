import BlockLang.Machine.Run
import BlockLang.Proofs.Layout
import BlockLang.Proofs.Plain
import Mathlib.Data.List.Count
import Mathlib.Data.List.Nodup
import Mathlib.Data.List.Perm.Subperm

/-! From code to a machine. Code that fits into memory has tables that fit into it as well, so every
number in it is kept as it is. A machine can be made from such code, and each of its labels leads to
the one instruction that marks it. -/

namespace BlockLang

theorem toInt_ofNat_of_le {n : Nat} (h : n ≤ tableLimit) : (Int64.ofNat n).toInt = n := by
  have hlimit : tableLimit < 9223372036854775808 := by decide
  exact Int64.toInt_ofNat_of_lt (by omega)

theorem Plain.index?_ofNat {n : Nat} (h : n ≤ tableLimit) :
    Plain.index? (Int64.ofNat n) = some n := by
  rw [index?, toInt_ofNat_of_le h, if_neg (by omega), Int.toNat_natCast]

theorem exists_of_allotted {lo hi : Nat} {arg : Int64} (h : allotted lo hi arg ≠ 0) :
    ∃ l, lo ≤ l ∧ l < hi ∧ arg = Int64.ofNat l := by
  obtain ⟨l, hl, rfl⟩ := List.mem_map.mp (List.count_pos_iff.mp (Nat.pos_of_ne_zero h))
  rw [List.mem_range'_1] at hl
  exact ⟨l, hl.1, by omega, rfl⟩

theorem allotted_le_one {hi : Nat} (h : hi ≤ tableLimit) (arg : Int64) :
    allotted 0 hi arg ≤ 1 := by
  refine List.nodup_iff_count_le_one.mp ?_ arg
  refine List.Nodup.map_on (fun a ha b hb heq => ?_) List.nodup_range'
  rw [List.mem_range'_1] at ha hb
  have hint := congrArg Int64.toInt heq
  rw [toInt_ofNat_of_le (by omega), toInt_ofNat_of_le (by omega)] at hint
  omega

namespace Machine

/-- The places that are entered for labels, each of which is marked once: a later instruction that marks the same
label would be the same instruction. -/
theorem markLabels_ok : ∀ (code : List Instr) (index : Nat) (labels : Array (Option Nat)),
    (∀ i ∈ code, i.op? = some .label → 0 ≤ i.arg.toInt ∧ i.arg.toInt < labels.size) →
      ∃ labels', markLabels index code labels = some labels' ∧
        (∀ l, (∀ i ∈ code, i.op? = some .label → i.arg.toInt.toNat ≠ l) → labels'[l]? = labels[l]?) ∧
        ∀ k i, code[k]? = some i → i.op? = some .label → code.count i ≤ 1 →
          labels'[i.arg.toInt.toNat]? = some (some (index + k))
  | [], _, labels, _ => ⟨labels, rfl, fun _ _ => rfl, fun k i hk => by simp at hk⟩
  | i :: rest, index, labels, h => by
      have hrest : ∀ labels' : Array (Option Nat), labels'.size = labels.size →
          ∀ j ∈ rest, j.op? = some .label → 0 ≤ j.arg.toInt ∧ j.arg.toInt < labels'.size :=
        fun labels' hsize j hj => hsize ▸ h j (List.mem_cons_of_mem _ hj)
      by_cases hi : i.op? = some .label
      · obtain ⟨hlow, hhigh⟩ := h i List.mem_cons_self hi
        let entered := labels.setIfInBounds i.arg.toInt.toNat (some index)
        obtain ⟨labels', hmark, hother, hplace⟩ := markLabels_ok rest (index + 1) entered
          (hrest entered Array.size_setIfInBounds)
        refine ⟨labels', ?_, fun l hl => ?_, fun k j hk hj hcount => ?_⟩
        · rw [markLabels, if_pos hi, if_neg (by omega)]
          exact hmark
        · rw [hother l fun j hj => hl j (List.mem_cons_of_mem _ hj)]
          exact Array.getElem?_setIfInBounds_ne (hl i List.mem_cons_self hi)
        · cases k with
          | zero =>
              obtain rfl : i = j := Option.some.inj hk
              have hlater : ∀ j ∈ rest, j.op? = some .label →
                  j.arg.toInt.toNat ≠ i.arg.toInt.toNat := by
                intro j hj hop heq
                have hlowj := (h j (List.mem_cons_of_mem _ hj) hop).1
                have harg : j.arg = i.arg := Int64.toInt_inj.mp (by omega)
                have hji : j = i := by
                  rw [Instr.eq_of_op? hop, harg, ← Instr.eq_of_op? hi]
                rw [List.count_cons_self] at hcount
                have hpos := List.count_pos_iff.mpr (hji ▸ hj)
                omega
              rw [hother _ hlater]
              exact Array.getElem?_setIfInBounds_self_of_lt (by omega)
          | succ k =>
              have hcount' : rest.count j ≤ 1 :=
                Nat.le_trans ((List.sublist_cons_self _ _).count_le _) hcount
              rw [hplace k j hk hj hcount', Nat.add_assoc, Nat.add_comm 1]
      · obtain ⟨labels', hmark, hother, hplace⟩ := markLabels_ok rest (index + 1) labels
          (hrest labels rfl)
        refine ⟨labels', ?_, fun l hl => ?_, fun k j hk hj hcount => ?_⟩
        · rw [markLabels, if_neg hi]
          exact hmark
        · exact hother l fun j hj => hl j (List.mem_cons_of_mem _ hj)
        · cases k with
          | zero =>
              obtain rfl : i = j := Option.some.inj hk
              exact absurd hj hi
          | succ k =>
              have hcount' : rest.count j ≤ 1 :=
                Nat.le_trans ((List.sublist_cons_self _ _).count_le _) hcount
              rw [hplace k j hk hj hcount', Nat.add_assoc, Nat.add_comm 1]

end Machine

/-- The finished code of a program: it began with nothing, and fits into memory. -/
structure Finished (c : Context) (slots : Nat) : Prop where
  grows : Grows {} c slots (allotted 0 c.labels)
  small : c.code.size ≤ tableLimit

namespace Finished

variable {c : Context} {slots : Nat}

theorem marks_eq (h : Finished c slots) (arg : Int64) : c.marks arg = allotted 0 c.labels arg := by
  rw [h.grows.marks]
  exact Nat.zero_add _

theorem strings_le (h : Finished c slots) : c.strings.size ≤ tableLimit := by
  have hfew : c.strings.size + 0 ≤ 0 + c.code.size := h.grows.few
  have hsmall := h.small
  omega

theorem slots_le (h : Finished c slots) : slots ≤ tableLimit := by
  have hsize : 0 + slots ≤ c.code.size := h.grows.size
  have hsmall := h.small
  omega

/-- Each label takes an instruction to mark it. -/
theorem labels_le (h : Finished c slots) : c.labels ≤ tableLimit := by
  have hinj : Function.Injective (Instr.of .label) := fun a b heq => (Instr.of_inj.mp heq).2
  let wanted := ((List.range' 0 c.labels).map Int64.ofNat).map (Instr.of .label)
  have hsub : wanted.Subperm (c.code.toList.map (·.instr)) := by
    refine List.subperm_iff_count.mpr fun i => ?_
    by_cases hi : i ∈ wanted
    · obtain ⟨arg, -, rfl⟩ := List.mem_map.mp hi
      rw [List.count_map_of_injective _ _ hinj]
      exact Nat.le_of_eq (h.marks_eq arg).symm
    · rw [List.count_eq_zero_of_not_mem hi]
      exact Nat.zero_le _
  have hlen := hsub.length_le
  simp only [wanted, List.length_map, List.length_range', Array.length_toList] at hlen
  exact Int.le_trans (Int.ofNat_le.mpr hlen) h.small

/-- An instruction that marks a label marks one that has been taken. -/
theorem label_inv (h : Finished c slots) {i : Instr} (hi : i ∈ c.code.toList.map (·.instr))
    (hop : i.op? = some .label) : ∃ l < c.labels, i.arg = Int64.ofNat l := by
  have hmarks : allotted 0 c.labels i.arg ≠ 0 := by
    rw [← h.marks_eq, Context.marks, ← Instr.eq_of_op? hop]
    exact Nat.ne_of_gt (List.count_pos_iff.mpr hi)
  obtain ⟨l, -, hl, harg⟩ := exists_of_allotted hmarks
  exact ⟨l, hl, harg⟩

end Finished

/-- A machine that runs the code of a context. -/
structure Loaded (m : Machine) (c : Context) : Prop where
  instrs : m.program.instrs.toList = c.code.toList.map (·.instr)
  constant : ∀ {n : Nat} {s : String}, c.strings[n]? = some s →
    m.program.constant? (Int64.ofNat n) = some s
  target : ∀ {n : Nat} {arg : Int64} {depth : Nat},
    c.code.toList[n]? = some ⟨Instr.of .label arg, depth⟩ → Plain.target? m arg = some n

theorem Loaded.size_eq {m : Machine} {c : Context} (h : Loaded m c) :
    m.program.instrs.size = c.code.size := by
  have hlen := congrArg List.length h.instrs
  rwa [Array.length_toList, List.length_map, Array.length_toList] at hlen

/-- The compiled form of a context. -/
structure Program.Holds (p : Program) (c : Context) (slots : Nat) : Prop where
  instrs : p.instrs = c.code.map (·.instr)
  constants : p.constants = c.strings
  labels : p.labelCount = Int64.ofNat c.labels
  slots : p.slotCount = Int64.ofNat slots

/-- The compiled form of a finished context is loaded, and each label leads to where it is marked. -/
theorem Program.Holds.new {p : Program} {c : Context} {slots : Nat} (hp : p.Holds c slots)
    (hc : Finished c slots) :
    ∃ m, Machine.new p = .ok (m, { slots := Array.replicate slots .unit }) ∧ m.program = p ∧
      Loaded m c := by
  have hslots : p.slotCount.toInt = slots := by
    rw [hp.slots, toInt_ofNat_of_le hc.slots_le]
  have hlabels : p.labelCount.toInt = c.labels := by
    rw [hp.labels, toInt_ofNat_of_le hc.labels_le]
  have hinstrs : p.instrs.toList = c.code.toList.map (·.instr) := by
    rw [hp.instrs, Array.toList_map]
  have hsmall := hc.slots_le
  have hfew := hc.labels_le
  have hrange : ∀ i ∈ p.instrs.toList, i.op? = some .label →
      0 ≤ i.arg.toInt ∧ i.arg.toInt < (Array.replicate c.labels (none : Option Nat)).size := by
    intro i hi hop
    rw [hinstrs] at hi
    obtain ⟨l, hl, harg⟩ := hc.label_inv hi hop
    rw [harg, toInt_ofNat_of_le (by omega), Array.size_replicate]
    omega
  obtain ⟨labels, hmark, -, hplace⟩ := Machine.markLabels_ok p.instrs.toList 0 _ hrange
  refine ⟨⟨p, labels⟩, ?_, rfl, hinstrs, fun {n s} hs => ?_, fun {n arg depth} hn => ?_⟩
  · rw [Machine.new, hslots, hlabels, if_neg (by omega), if_neg (by omega),
      Int.toNat_natCast, Int.toNat_natCast, hmark]
  · have hlt := (Array.getElem?_eq_some_iff.mp hs).1
    have hle := hc.strings_le
    show p.constant? _ = some s
    rw [Program.constant?, toInt_ofNat_of_le (by omega), if_neg (by omega), Int.toNat_natCast,
      hp.constants, hs]
  · have hat : p.instrs.toList[n]? = some (Instr.of .label arg) := by
      rw [hinstrs, List.getElem?_map, hn]
      rfl
    have hcount : p.instrs.toList.count (Instr.of .label arg) ≤ 1 := by
      rw [hinstrs]
      show c.marks arg ≤ 1
      rw [hc.marks_eq]
      exact allotted_le_one hfew arg
    have hmem := List.mem_of_getElem? hat
    rw [hinstrs] at hmem
    obtain ⟨l, hl, harg⟩ := hc.label_inv hmem (Instr.op?_of _ _)
    rw [Instr.arg_of] at harg
    have hplaced := hplace n _ hat (Instr.op?_of _ _) hcount
    rw [Instr.arg_of, harg, toInt_ofNat_of_le (by omega), Int.toNat_natCast, Nat.zero_add] at hplaced
    rw [Plain.target?, harg, Plain.index?_ofNat (by omega)]
    show (labels[l]?).join = some n
    rw [hplaced]
    rfl

theorem getD_section? {α : Type} (xs : Array α) : (section? xs).getD #[] = xs := by
  rw [section?]
  cases hx : xs.isEmpty with
  | true => exact (Array.isEmpty_iff.mp hx).symm
  | false => rfl

/-- Code in which every `break` and `continue` stands in a loop can be generated, unless it does not
fit into memory. -/
theorem generate_cases {body : Body .resolved} (hin : Body.Enclosed false body) :
    ∃ c, Emit.program body {} = .ok ((), c) ∧ c.depth = 0 ∧
      (tableLimit < c.code.size ∧
        generate body (Body.declarations body) = .error (.tooLong c.code.size) ∨
      Finished c (Body.declarations body) ∧
        ∃ p, generate body (Body.declarations body) = .ok p ∧ p.Holds c (Body.declarations body)) := by
  obtain ⟨⟨_, c⟩, hc⟩ := Emit.program_total body hin {}
  obtain ⟨hgrows, hdepth⟩ := Emit.program_lays body hc
  have hdepth : c.depth = 0 := hdepth
  refine ⟨c, hc, hdepth, ?_⟩
  have hgen : ∀ slots, generate body slots =
      if tableLimit < c.code.size then .error (.tooLong c.code.size)
      else .ok {
        code := section? (c.code.map (·.instr))
        strings := section? c.strings
        labelCount := Int64.ofNat c.labels
        slotCount := Int64.ofNat slots } := by
    intro slots
    rw [generate, StateT.run, hc]
    simp only [bind, Except.bind, hdepth, ne_eq, not_true_eq_false, if_false]
    rfl
  rw [hgen]
  by_cases hlong : tableLimit < c.code.size
  · exact .inl ⟨hlong, if_pos hlong⟩
  · exact .inr ⟨⟨hgrows, Int.not_lt.mp hlong⟩, _, if_neg hlong, getD_section? _, getD_section? _, rfl,
      rfl⟩

end BlockLang

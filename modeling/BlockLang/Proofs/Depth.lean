import BlockLang.Proofs.Confinement
import BlockLang.Proofs.Exits
import BlockLang.Proofs.Safety

/-! The height of the stack is fixed by the place in the code. Wherever a run of a compiled program
comes from, it finds in front of an instruction a stack of the height that was noted when the
instruction was emitted.

A run enters a loop at the label of its start and nowhere else. As long as it stays in the loop, it
leaves the values that it found there alone, or it is about to leave for a loop around this one. So a
jump to the start or the end of a loop arrives with the very stack with which the loop was entered. -/

namespace BlockLang

theorem ofNat_inj_of_le {a b : Nat} (ha : a ≤ tableLimit) (hb : b ≤ tableLimit)
    (h : Int64.ofNat a = Int64.ofNat b) : a = b := by
  have hint := congrArg Int64.toInt h
  rw [toInt_ofNat_of_le ha, toInt_ofNat_of_le hb] at hint
  exact Int.ofNat.inj hint

theorem count_map_ofNat {targets : List Nat} {l : Nat} (htargets : ∀ l ∈ targets, l ≤ tableLimit)
    (hl : l ≤ tableLimit) : (targets.map Int64.ofNat).count (Int64.ofNat l) = targets.count l := by
  rw [List.count_eq_countP, List.countP_map, List.count_eq_countP]
  refine List.countP_congr fun l' hl' => ?_
  rw [Function.comp_apply, beq_iff_eq, beq_iff_eq]
  exact ⟨ofNat_inj_of_le (htargets l' hl') hl, congrArg Int64.ofNat⟩

/-- A label that has been taken has a place. -/
theorem Finished.label_placed {c : Context} {slots l : Nat} (h : Finished c slots)
    (hl : l < c.labels) :
    ∃ (n : Nat) (d : Nat), c.code.toList[n]? = some ⟨Instr.of .label (Int64.ofNat l), d⟩ := by
  have hmem : Instr.of .label (Int64.ofNat l) ∈ c.code.toList.map (·.instr) := by
    rw [← List.count_pos_iff]
    show 0 < c.marks (Int64.ofNat l)
    rw [h.marks_eq, allotted, List.count_pos_iff]
    refine List.mem_map_of_mem ?_
    rw [List.mem_range'_1]
    omega
  obtain ⟨x, hx, hinstr⟩ := List.mem_map.mp hmem
  obtain ⟨n, hn⟩ := List.getElem?_of_mem hx
  exact ⟨n, x.depth, hn.trans (by rw [← hinstr])⟩

theorem Loaded.placed_of_target {m : Machine} {c : Context} {slots l pos : Nat} (h : Loaded m c)
    (hfin : Finished c slots) (hl : l < c.labels)
    (ht : Plain.target? m (Int64.ofNat l) = some pos) :
    ∃ d, c.code.toList[pos]? = some ⟨Instr.of .label (Int64.ofNat l), d⟩ := by
  obtain ⟨n, d, hn⟩ := hfin.label_placed hl
  rw [h.target hn] at ht
  cases ht
  exact ⟨d, hn⟩

/-- A label of a loop and its place. -/
def LoopSpan.Marks (loop : LoopSpan) (l pos : Nat) : Prop :=
  l = loop.frame.leave ∧ pos = loop.last ∨ l = loop.frame.again ∧ pos = loop.first

namespace Span

variable {c : Context} {slots : Nat} {loop : LoopSpan} {around : Option LoopFrame} {hi i l d : Nat}
  {op : Op}

/-- The labels that are named in the code of a loop are its own, unless it is a jump to a loop around
it that names them. -/
theorem named_inside (hs : Span 0 0 c.code.toList c.labels loop around hi) (hfin : Finished c slots)
    (hi₁ : loop.first ≤ i) (hi₂ : i ≤ loop.last) (hop : op.operand = .label) (hl : l < c.labels)
    (hx : c.code.toList[i]? = some ⟨Instr.of op (Int64.ofNat l), d⟩) :
    (loop.frame.again ≤ l ∧ l < hi) ∧ loop.frame.depth + op.pops ≤ d ∨
      op = .jump ∧ l < loop.frame.again := by
  have hsmall := hfin.labels_le
  have hrange := hs.range
  obtain ⟨hno, -⟩ | ⟨-, hd, l', hown, harg⟩ | ⟨rfl, f, l', hf, hl', harg⟩ :=
    (hs.inside i _ hi₁ hi₂ hx).inv
  · exact absurd hop hno
  · obtain rfl : l = l' := ofNat_inj_of_le (by omega) (by omega) harg
    exact .inl ⟨hown, hd⟩
  · have hout := hs.outer f hf
    obtain rfl : l = l' := ofNat_inj_of_le (by omega) (by omega) harg
    exact .inr ⟨rfl, by omega⟩

theorem named_outside (hs : Span 0 0 c.code.toList c.labels loop around hi)
    (hfin : Finished c slots) (hout : ¬(loop.first ≤ i ∧ i ≤ loop.last)) (hop : op.operand = .label)
    (hl : l < c.labels) (hx : c.code.toList[i]? = some ⟨Instr.of op (Int64.ofNat l), d⟩) :
    l < loop.frame.again ∨ hi ≤ l := by
  have hsmall := hfin.labels_le
  obtain ⟨l', hl', harg, hapart⟩ :=
    hs.outside i _ (Nat.zero_le i) (by omega) hx op _ rfl hop
  obtain rfl : l = l' := ofNat_inj_of_le (by omega) (by omega) harg
  exact hapart

theorem marked {pos : Nat} (hs : Span 0 0 c.code.toList c.labels loop around hi)
    (hpos : loop.Marks l pos) :
    (loop.frame.again ≤ l ∧ l < hi) ∧
      ∃ d, c.code.toList[pos]? = some ⟨Instr.of .label (Int64.ofNat l), d⟩ := by
  have hleave := hs.leave_eq
  have hlt := hs.leave_lt
  rcases hpos with ⟨rfl, rfl⟩ | ⟨rfl, rfl⟩
  · exact ⟨by omega, hs.leave⟩
  · exact ⟨by omega, _, hs.enter⟩

/-- A label that is not the loop's own is not in its code. -/
theorem target_outside {m : Machine} {pos : Nat} (hs : Span 0 0 c.code.toList c.labels loop around hi)
    (hfin : Finished c slots) (hloaded : Loaded m c) (hl : l < c.labels)
    (hapart : l < loop.frame.again ∨ hi ≤ l) (ht : Plain.target? m (Int64.ofNat l) = some pos) :
    ¬(loop.first ≤ pos ∧ pos ≤ loop.last) := by
  rintro ⟨hpos, hpos'⟩
  obtain ⟨d, hx⟩ := hloaded.placed_of_target hfin hl ht
  obtain ⟨hown, -⟩ | ⟨hjump, -⟩ := hs.named_inside hfin hpos hpos' rfl hl hx
  · omega
  · cases hjump

end Span

/-- Values that lie below what is taken stay. -/
theorem Shift.suffix {pops pushes : Nat} {stack stack' below : List Value}
    (h : Shift pops pushes stack stack') (hbelow : below <:+ stack)
    (hlen : below.length + pops ≤ stack.length) : below <:+ stack' := by
  obtain ⟨taken, put, rest, rfl, rfl, htaken, -⟩ := h
  rw [List.length_append, htaken] at hlen
  have hrest : below <:+ rest := List.suffix_of_suffix_length_le hbelow (List.suffix_append _ _)
    (by omega)
  exact hrest.trans (List.suffix_append _ _)

theorem Shift.length {pops pushes : Nat} {stack stack' : List Value}
    (h : Shift pops pushes stack stack') : stack'.length + pops = stack.length + pushes := by
  obtain ⟨taken, put, rest, rfl, rfl, rfl, rfl⟩ := h
  rw [List.length_append, List.length_append]
  omega

namespace Machine

variable {m : Machine} {start u t : MachineState} {c : Context} {slots : Nat} {loop : LoopSpan}
  {around : Option LoopFrame} {hi : Nat} {below : List Value}

theorem step_emitted (hloaded : Loaded m c) (hready : u.Ready c) (h : m.step u = .running t) :
    ∃ op arg v, c.code.toList[u.ip]? = some ⟨Instr.of op arg, u.stack.length⟩ ∧
      Exec.Does m op arg u none v ∧ t = { v with ip := v.ip + 1 } := by
  obtain ⟨i, op, v, hi, hop, hdoes, rfl⟩ := step_eq_running h
  refine ⟨op, i.arg, v, ?_, hdoes, rfl⟩
  rw [← Array.getElem?_toList, hloaded.instrs, List.getElem?_map, Option.map_eq_some_iff] at hi
  obtain ⟨x, hx, rfl⟩ := hi
  have hheight := hready.height
  rw [Context.depthAt, ← Array.getElem?_toList, hx] at hheight
  rw [hx, hheight, ← Instr.eq_of_op? hop]
  rfl

/-- From outside of a loop, a step stays outside or enters the loop. -/
theorem step_outside (hs : Span 0 0 c.code.toList c.labels loop around hi) (hfin : Finished c slots)
    (hloaded : Loaded m c) (hready : u.Ready c) (h : m.step u = .running t)
    (hout : ¬(loop.first ≤ u.ip ∧ u.ip ≤ loop.last)) :
    t.ip = loop.first ∨ ¬(loop.first ≤ t.ip ∧ t.ip ≤ loop.last) := by
  obtain ⟨op, arg, v, hx, hdoes, rfl⟩ := step_emitted hloaded hready h
  have hsteps : ¬(loop.first ≤ v.ip ∧ v.ip ≤ loop.last) := by
    cases hdoes with
    | goes _ hip _ => rwa [hip]
    | jumps hjump htarget _ =>
        have hop : op.operand = .label := by cases op <;> first | rfl | cases hjump
        obtain ⟨l, hl, rfl, hapart⟩ := hs.outside u.ip _ (Nat.zero_le _) (by omega) hx op arg rfl hop
        exact hs.target_outside hfin hloaded hl hapart htarget
  show v.ip + 1 = loop.first ∨ ¬(loop.first ≤ v.ip + 1 ∧ v.ip + 1 ≤ loop.last)
  omega

/-- In a loop, a step enters the loop anew, or leaves it, or leaves the values alone that were there when the loop
was entered. A drop may take one of them, but then the stack is too low until the loop is left. -/
theorem step_inside (hs : Span 0 0 c.code.toList c.labels loop around hi) (hfin : Finished c slots)
    (hloaded : Loaded m c) (hready : u.Ready c) (h : m.step u = .running t)
    (hin : loop.first ≤ u.ip ∧ u.ip ≤ loop.last) (hbelow : below.length = loop.frame.depth)
    (hkeeps : below <:+ u.stack ∨ u.stack.length < loop.frame.depth) :
    (t.ip = loop.first ∨ ¬(loop.first ≤ t.ip ∧ t.ip ≤ loop.last)) ∨
      below <:+ t.stack ∨ t.stack.length < loop.frame.depth := by
  obtain ⟨op, arg, v, hx, hdoes, rfl⟩ := step_emitted hloaded hready h
  have hcalm : loop.frame.depth + op.pops ≤ u.stack.length → below <:+ v.stack := by
    intro hd
    have hsuffix := hkeeps.resolve_right (by omega)
    cases hdoes with
    | goes _ _ hshift => exact hshift.suffix hsuffix (by omega)
    | jumps _ _ hshift => exact hshift.suffix hsuffix (by omega)
  obtain ⟨-, hd | rfl⟩ | ⟨-, hd, -⟩ | ⟨rfl, f, l, hf, hl, rfl⟩ :=
    (hs.inside u.ip _ hin.1 hin.2 hx).inv
  · exact .inr (.inl (hcalm hd))
  · by_cases hd : loop.frame.depth + 1 ≤ u.stack.length
    · exact .inr (.inl (hcalm hd))
    · cases hdoes with
      | goes _ _ hshift =>
          have hlen : v.stack.length + 1 = u.stack.length + 0 := hshift.length
          refine .inr (.inr ?_)
          show v.stack.length < loop.frame.depth
          omega
      | jumps hjump _ _ => cases hjump
  · exact .inr (.inl (hcalm hd))
  · cases hdoes with
    | goes hne _ _ => exact absurd rfl hne
    | jumps _ htarget _ =>
        have hlt : l < loop.frame.again := by
          have hout := hs.outer f hf
          omega
        have hrange := hs.range
        have hout := hs.target_outside hfin hloaded (by omega) (.inl hlt) htarget
        refine .inl ?_
        show v.ip + 1 = loop.first ∨ ¬(loop.first ≤ v.ip + 1 ∧ v.ip + 1 ≤ loop.last)
        omega

/-- The last state, up to a number of steps, in which a run has entered a loop. -/
def Entered (m : Machine) (start : MachineState) (loop : LoopSpan) (n : Nat) (s : MachineState) :
    Prop :=
  ∃ k ≤ n, m.loop k start = .running s ∧ s.ip = loop.first ∧
    ∀ j v, k < j → j ≤ n → m.loop j start = .running v → v.ip ≠ loop.first

theorem Entered.now {n : Nat} {s : MachineState} (hn : m.loop n start = .running s)
    (hip : s.ip = loop.first) : m.Entered start loop n s :=
  ⟨n, Nat.le_refl n, hn, hip, fun _ _ hj hj' => absurd hj (Nat.not_lt.mpr hj')⟩

theorem Entered.later {n : Nat} {s : MachineState} (h : m.Entered start loop n s)
    (hn : m.loop (n + 1) start = .running t) (hip : t.ip ≠ loop.first) :
    m.Entered start loop (n + 1) s := by
  obtain ⟨k, hk, hs, hfirst, hsince⟩ := h
  refine ⟨k, Nat.le_succ_of_le hk, hs, hfirst, fun j v hj hj' hv => ?_⟩
  rcases Nat.le_succ_iff.mp hj' with hj' | rfl
  · exact hsince j v hj hj' hv
  · rw [hn] at hv
    cases hv
    exact hip

section Loops

variable {program : Body .typed} (h : m.Carries start c program) (hfin : Finished c slots)
  (hip : start.ip = 0) (hs : Span 0 0 c.code.toList c.labels loop around hi)

include h hs in
theorem Carries.entered_height {n : Nat} {s : MachineState} (hs' : m.Entered start loop n s) :
    s.stack.length = loop.frame.depth := by
  obtain ⟨k, -, hk, hfirst, -⟩ := hs'
  rw [(h.ready hk).height, hfirst, Context.depthAt, ← Array.getElem?_toList, hs.enter]
  rfl

include h hfin hip hs in
/-- Wherever a run is in a loop, it has entered it, and the values that were there then are still
there, unless some have been dropped on the way out. -/
theorem Carries.in_loop {n : Nat} (hn : m.loop n start = .running u)
    (hin : loop.first ≤ u.ip ∧ u.ip ≤ loop.last) :
    ∃ s, m.Entered start loop n s ∧ (s.stack <:+ u.stack ∨ u.stack.length < loop.frame.depth) := by
  induction n generalizing u with
  | zero =>
      cases hn
      exact ⟨start, .now rfl (by omega), .inl (List.suffix_refl _)⟩
  | succ n ih =>
      obtain ⟨v, hv⟩ := loop_of_running hn (Nat.le_succ n)
      have hstep := (loop_succ hv).symm.trans hn
      -- A state at the first label is an entry, also when the run was in the loop before.
      by_cases hfirst : u.ip = loop.first
      · exact ⟨u, .now hn hfirst, .inl (List.suffix_refl _)⟩
      by_cases hvin : loop.first ≤ v.ip ∧ v.ip ≤ loop.last
      · obtain ⟨s, hentered, hkeeps⟩ := ih hv hvin
        refine ⟨s, hentered.later hn hfirst, ?_⟩
        rcases step_inside hs hfin h.loaded (h.ready hv) hstep hvin (h.entered_height hs hentered)
          hkeeps with hout | hkeeps
        · omega
        · exact hkeeps
      · have hout := step_outside hs hfin h.loaded (h.ready hv) hstep hvin
        omega

include h hs in
/-- Behind the label of its start, a loop has the height with which it was entered. -/
theorem Carries.depthAt_first {n : Nat} {s : MachineState} (hentered : m.Entered start loop n s)
    (hn : m.loop n start = .running u) (hu : u.ip ≠ loop.first) :
    c.depthAt (loop.first + 1) = loop.frame.depth := by
  rw [← h.entered_height hs hentered]
  obtain ⟨k, hk, hks, hfirst, -⟩ := hentered
  have hne : k ≠ n := by
    rintro rfl
    rw [hks] at hn
    cases hn
    exact hu hfirst
  obtain ⟨s', hs'⟩ := loop_of_running hn (by omega : k + 1 ≤ n)
  obtain ⟨op, arg, v, hx, hdoes, rfl⟩ :=
    step_emitted h.loaded (h.ready hks) ((loop_succ hks).symm.trans hs')
  rw [hfirst, hs.enter] at hx
  obtain ⟨rfl, -⟩ := Instr.of_inj.mp (Emitted.mk.inj (Option.some.inj hx)).1
  cases hdoes with
  | goes _ hip hshift =>
      have hheight : v.stack.length = c.depthAt (v.ip + 1) := (h.ready hs').height
      rw [hip, hfirst, hshift.eq_self] at hheight
      exact hheight.symm
  | jumps hjump _ _ => cases hjump

include h in
/-- A jump is always taken. -/
theorem Carries.step_jump {n : Nat} {arg : Int64} (hn : m.loop n start = .running u)
    (hjump : m.program.instrs[u.ip]? = some (Instr.of .jump arg)) :
    ∃ t pos, m.step u = .running t ∧ Plain.target? m arg = some pos ∧ t.ip = pos + 1 ∧
      t.stack = u.stack ∧ c.code.toList[u.ip]? = some ⟨Instr.of .jump arg, u.stack.length⟩ := by
  cases h.continues hn with
  | halted hend _ =>
      rw [hend, Array.getElem?_size] at hjump
      cases hjump
  | failed hi hop hcause _ _ =>
      rw [hjump] at hi
      cases hi
      rw [Instr.op?_of] at hop
      cases hop
      rcases hcause with ⟨hop, -⟩ | ⟨hop, -⟩ <;> cases hop
  | running hstep =>
      obtain ⟨op, arg', v, hx, hdoes, rfl⟩ := step_emitted h.loaded (h.ready hn) hstep
      rw [← Array.getElem?_toList, h.loaded.instrs, List.getElem?_map, hx] at hjump
      obtain ⟨rfl, rfl⟩ := Instr.of_inj.mp (Option.some.inj hjump)
      cases hdoes with
      | goes hne _ _ => exact absurd rfl hne
      | jumps _ htarget hshift => exact ⟨_, v.ip, hstep, htarget, rfl, hshift.eq_self, hx⟩

include h hfin hip hs in
/-- A jump to a label of a loop arrives behind the label, with the stack with which the loop was
entered. -/
theorem Carries.arrives {n l pos : Nat} (hn : m.loop n start = .running u)
    (hjump : m.program.instrs[u.ip]? = some (Instr.of .jump (Int64.ofNat l)))
    (hpos : loop.Marks l pos) :
    ∃ s t, m.Entered start loop n s ∧ m.step u = .running t ∧ t.ip = pos + 1 ∧
      t.stack = s.stack := by
  obtain ⟨hl, d, hlabel⟩ := hs.marked hpos
  have hrange := hs.range
  obtain ⟨t, pos', hstep, htarget, htip, hstack, hx⟩ := h.step_jump hn hjump
  rw [h.loaded.target hlabel] at htarget
  cases htarget
  have hin : loop.first ≤ u.ip ∧ u.ip ≤ loop.last := by
    by_contra hout
    have hapart := hs.named_outside hfin hout rfl (by omega) hx
    omega
  obtain ⟨s, hentered, hkeeps⟩ := h.in_loop hfin hip hs hn hin
  have hhigh : loop.frame.depth ≤ u.stack.length := by
    obtain ⟨-, hd⟩ | ⟨-, hlt⟩ := hs.named_inside hfin hin.1 hin.2 rfl (by omega) hx
    · exact hd
    · omega
  have hsuffix : s.stack <:+ t.stack := hstack ▸ hkeeps.resolve_right (Nat.not_lt.mpr hhigh)
  have hne : u.ip ≠ loop.first := by
    intro heq
    rw [heq, hs.enter] at hx
    cases (Instr.of_inj.mp (Emitted.mk.inj (Option.some.inj hx)).1).1
  have hheight : t.stack.length = loop.frame.depth := by
    rw [(h.ready ((loop_succ hn).trans hstep)).height, htip]
    rcases hpos with ⟨-, rfl⟩ | ⟨-, rfl⟩
    · rw [Context.depthAt, ← Array.getElem?_toList, hs.after]
      rfl
    · exact h.depthAt_first hs hentered hn hne
  refine ⟨s, t, hentered, hstep, htip, ?_⟩
  exact (hsuffix.eq_of_length ((h.entered_height hs hentered).trans hheight.symm)).symm

end Loops

end Machine

/-! ### Compiled programs -/

/-- The state of a run that is not over. -/
def StepResult.running? : StepResult → Option MachineState
  | .running s => some s
  | .ended _ _ | .faulty _ => none

theorem StepResult.eq_running {r : StepResult} {s : MachineState} (h : r.running? = some s) :
    r = .running s := by
  cases r with
  | running t => exact congrArg StepResult.running (Option.some.inj h)
  | ended e t => cases h
  | faulty f => cases h

def Program.jumpsTo (p : Program) (l : Nat) : Nat :=
  p.instrs.toList.count (Instr.of .jump (Int64.ofNat l))

/-- The code of a source gives every place a height of the stack. Every state of a run has the height
of its place: none at the beginning and at the end of the code, and in front of an instruction the one
that was noted when it was emitted. A jump to the end or the start of a loop arrives with the stack
with which the loop was last entered. -/
theorem stack_height_static {settings : Settings} {name : String} {source : List Char} {p : Program}
    (h : (Compilation.compiled settings name source).result = .ok p) :
    ∃ body slots c m start,
      (Compilation.resolved settings name source).result = .ok (body, slots) ∧
      (Emit.program body).run {} = .ok ((), c) ∧ p.instrs = c.code.map (·.instr) ∧
      Machine.new p = .ok (m, start) ∧ m.program = p ∧
      (∃ height : Nat → Nat, height 0 = 0 ∧ height p.instrs.size = 0 ∧
        (∀ i x, c.code[i]? = some x → height i = x.depth) ∧
        ∀ n s, m.loop n start = .running s → s.ip ≤ p.instrs.size ∧ s.stack.length = height s.ip) ∧
      (∀ n s, m.loop n start = .ended none s → s.stack = []) ∧
      ∀ loop ∈ c.loops, ∀ l pos, loop.Marks l pos →
        p.instrs[pos]? = some (Instr.of .label (Int64.ofNat l)) ∧
        ∀ n u, m.loop n start = .running u →
          p.instrs[u.ip]? = some (Instr.of .jump (Int64.ofNat l)) →
          ∃ s t, m.Entered start loop n s ∧ m.step u = .running t ∧ t.ip = pos + 1 ∧
            t.stack = s.stack := by
  obtain ⟨program, body, slots, c, m, start, hres, hemit, hfin, hp, hnew, rfl, hcarries⟩ :=
    Compilation.compiled_carries h
  have hstart := Machine.new_state hnew
  have hsize := hcarries.loaded.size_eq
  have hend : c.depthAt c.code.size = 0 := by
    rw [Context.depthAt, Array.getElem?_size]
    rfl
  refine ⟨body, slots, c, m, start, hres, hemit, hp.instrs, hnew, rfl,
    ⟨c.depthAt, ?_, hsize ▸ hend, fun i x hx => by rw [Context.depthAt, hx]; rfl, fun n s hn => ?_⟩,
    fun n s hn => ?_, fun loop hloop l pos hpos => ?_⟩
  · have hheight := (hcarries.ready (n := 0) rfl).height
    rw [hstart] at hheight
    exact hheight.symm
  · exact ⟨hsize ▸ (hcarries.ready hn).ip_le, (hcarries.ready hn).height⟩
  · obtain ⟨k, u, hk, hstep⟩ := Machine.loop_ended_inv hn
    obtain ⟨-, rfl, hout⟩ | ⟨_, _, _, _, _, _, _, _, _, hsome, _⟩ := Machine.step_eq_ended hstep
    · have hready := hcarries.ready hk
      have hat : s.ip = c.code.size := Nat.le_antisymm hready.ip_le (hsize ▸ hout)
      rw [← List.length_eq_zero_iff, hready.height, hat, hend]
    · cases hsome
  · obtain ⟨around, hi, hs⟩ := Emit.program_spans hemit hloop
    obtain ⟨-, d, hlabel⟩ := hs.marked hpos
    refine ⟨?_, fun n u hn hjump => ?_⟩
    · rw [hp.instrs, Array.getElem?_map, ← Array.getElem?_toList, hlabel]
      rfl
    · exact hcarries.arrives hfin (by rw [hstart]) hs hn hjump hpos

/-- The loops of the code of a source are the `while` expressions of its tree, in the order in which they
end. The jumps to the end of a loop are its `break` statements; those to its start are its `continue`
statements and the one behind its body. No such statement is outside of all loops. -/
theorem Compilation.loops_jumped {settings : Settings} {name : String} {source : List Char} {p : Program}
    (h : (compiled settings name source).result = .ok p) :
    ∃ body slots c, (resolved settings name source).result = .ok (body, slots) ∧
      (Emit.program body).run {} = .ok ((), c) ∧ p.instrs = c.code.map (·.instr) ∧
      (Body.exits body).own = {} ∧
      c.loops.toList.map (fun loop => (p.jumpsTo loop.frame.leave, p.jumpsTo loop.frame.again)) =
        (Body.exits body).loops.map fun x => (x.leaves, x.agains + 1) := by
  obtain ⟨program, body, slots, c, m, start, hres, hemit, hfin, hp, hnew, rfl, hcarries⟩ := compiled_carries h
  obtain ⟨-, targets, loops, hjumps, hloops, hcounts⟩ := Emit.program_tallies body hemit
  refine ⟨body, slots, c, hres, hemit, hp.instrs, hcounts.own.symm, ?_⟩
  have hsmall := hfin.labels_le
  have htargets : ∀ l ∈ targets, l ≤ tableLimit := by
    intro l hl
    rcases hcounts.named l hl with (hl | ⟨_, ⟨⟩, _⟩) | hl
    · exact hl.elim
    · omega
  have hjumps : ∀ l < c.labels, m.program.jumpsTo l = targets.count l := by
    intro l hl
    rw [Program.jumpsTo, hp.instrs, Array.toList_map, ← Context.count_jumpArgs, hjumps]
    exact count_map_ofNat htargets (by omega)
  have hloops : c.loops.toList = loops := hloops
  have hexits := congrArg (List.map fun x : Exits => (x.leaves, x.agains)) hcounts.loops
  rw [List.map_map, List.map_map] at hexits
  rw [hloops]
  refine Eq.trans (List.map_congr_left fun loop hloop => ?_) hexits
  obtain ⟨hleave, hagain⟩ := hcounts.fresh loop hloop
  exact congrArg₂ Prod.mk (hjumps _ hleave.2) (hjumps _ hagain.2)

/-- A `break` while two operands wait, out of a loop that was entered while one did. -/
theorem stack_height_pending :
    let source :=
      "write 7 + \x7b while true \x7b write 1 + \x7b if true \x7b break \x7d; 2 \x7d \x7d; 5 \x7d".toList
    ∃ p m start u s t, (Compilation.compiled {} "pending" source).result = .ok p ∧
      Machine.new p = .ok (m, start) ∧ m.loop 8 start = .running u ∧
      p.instrs[u.ip]? = some (Instr.of .jump (Int64.ofNat 1)) ∧
      m.Entered start ⟨⟨1, 0, 1⟩, 1, 20⟩ 8 s ∧ m.step u = .running t ∧ t.ip = 21 ∧
      t.stack = s.stack := by
  intro source
  have hok : (Compilation.compiled {} "pending" source).result.isOk = true := by decide +kernel
  have hloops : (Compilation.resolved {} "pending" source).result.toOption.bind (fun r =>
      ((Emit.program r.1).run {}).toOption.map (·.2.loops)) = some #[⟨⟨1, 0, 1⟩, 1, 20⟩] := by
    decide +kernel
  have hjump : (Compilation.compiled {} "pending" source).result.toOption.bind (fun p =>
      (Machine.new p).toOption.bind fun r =>
        (r.1.loop 8 r.2).running?.bind fun u => p.instrs[u.ip]?) =
          some (Instr.of .jump (Int64.ofNat 1)) := by
    decide +kernel
  obtain ⟨p, hp⟩ := ok_of_isOk hok
  obtain ⟨body, slots, c, m, start, hres, hrun, -, hnew, -, -, -, harrives⟩ := stack_height_static hp
  have hloops : c.loops = #[⟨⟨1, 0, 1⟩, 1, 20⟩] := by
    rw [hres, Except.toOption, Option.bind_some, hrun] at hloops
    exact Option.some.inj hloops
  rw [hp, Except.toOption, Option.bind_some, hnew, Except.toOption, Option.bind_some] at hjump
  have hmem : ⟨⟨1, 0, 1⟩, 1, 20⟩ ∈ c.loops := by rw [hloops]; exact Array.mem_singleton_self _
  obtain ⟨u, hrunning, hjump⟩ := Option.bind_eq_some_iff.mp hjump
  have hu := StepResult.eq_running hrunning
  obtain ⟨s, t, hentered, hstep, hip, hstack⟩ :=
    (harrives _ hmem 1 20 (.inl ⟨rfl, rfl⟩)).2 8 u hu hjump
  exact ⟨p, m, start, u, s, t, hp, hnew, hu, hjump, hentered, hstep, hip, hstack⟩

end BlockLang

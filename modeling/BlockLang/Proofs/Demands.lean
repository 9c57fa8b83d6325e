import BlockLang.Proofs.Effects

/-! What an instruction needs of the stack. An operation that finds as many values as it pops does not miss any: each
piece of it needs no more than what the pieces in front of it have left. So the table of the operations says all that
a generator of code has to know about the stack: how many values must be there, by how much their number changes, and
which of them stay. -/

namespace BlockLang

namespace Shift

variable {pops pushes : Nat} {stack stack' : List Value}

theorem length_eq (h : Shift pops pushes stack stack') :
    pops ≤ stack.length ∧ (stack'.length : Int) = stack.length + (pushes - pops) := by
  obtain ⟨taken, put, rest, rfl, rfl, rfl, rfl⟩ := h
  rw [List.length_append, List.length_append]
  omega

/-- Counted from the bottom, a value below what is taken keeps its place. -/
theorem getElem?_reverse (h : Shift pops pushes stack stack') {place : Nat} (hplace : place < stack.length - pops) :
    stack'.reverse[place]? = stack.reverse[place]? := by
  obtain ⟨taken, put, rest, rfl, rfl, rfl, -⟩ := h
  have hrest : place < rest.reverse.length := by
    rw [List.length_append] at hplace
    rw [List.length_reverse]
    omega
  rw [List.reverse_append, List.reverse_append, List.getElem?_append_left hrest, List.getElem?_append_left hrest]

end Shift

namespace Exec

/-- A piece of an instruction that does not miss a value if that many are there. -/
def Needs {α : Type} (count : Nat) (x : Exec α) : Prop :=
  ∀ s : MachineState, count ≤ s.stack.length → ∀ ip, x s ≠ .error (.underflow ip)

variable {α β : Type} {count : Nat} {x : Exec α} {m : Machine} {s t : MachineState}

theorem Needs.mono {more : Nat} (hx : Needs count x) (hle : count ≤ more) : Needs more x :=
  fun s hs => hx s (Nat.le_trans hle hs)

/-- A value is missed by the first piece, or by the second in the state that the first one leaves. -/
theorem Needs.of_bind {f : α → Exec β} (hx : Needs count x)
    (hf : ∀ s a t, count ≤ s.stack.length → x s = .ok (a, t) → ∀ ip, f a t ≠ .error (.underflow ip)) :
    Needs count (x >>= f) := by
  intro s hs ip h
  rw [bind_apply] at h
  cases hrun : x s with
  | error e =>
      rw [hrun] at h
      cases h
      exact hx s hs ip hrun
  | ok r =>
      obtain ⟨a, t⟩ := r
      rw [hrun] at h
      exact hf s a t hs hrun ip h

/-- What is behind a piece finds the values that the piece has left. -/
theorem Needs.bind {taken : Nat} {f : α → Exec β} (hx : Needs taken x) (hshifts : Shifts taken 0 (fun _ => True) x)
    (hf : ∀ a, Needs count (f a)) : Needs (count + taken) (x >>= f) := by
  refine (hx.mono (Nat.le_add_left taken count)).of_bind fun s a t hs hrun => hf a t ?_
  obtain ⟨-, -, values, put, rest, hstack, hrest, hvalues, hput⟩ := hshifts s a t hrun
  rw [hstack, List.length_append] at hs
  rw [hrest, List.length_append]
  omega

/-- Behind the last piece that needs a value. -/
theorem Needs.followed {f : α → Exec β} (hx : Needs count x) (hf : ∀ a, Needs 0 (f a)) : Needs count (x >>= f) :=
  hx.of_bind fun _ a t _ _ => hf a t (Nat.zero_le _)

theorem Needs.pure {a : α} : Needs 0 (pure a : Exec α) := by
  rintro s - ip ⟨⟩

theorem Needs.get : Needs 0 (get : Exec MachineState) := by
  rintro s - ip ⟨⟩

theorem Needs.fault {f : Fault} (h : ∀ ip, f ≠ .underflow ip) : Needs 0 (fault f : Exec α) := by
  intro s _ ip hrun
  exact h ip (Except.error.inj hrun)

theorem push_needs (v : Value) : Needs 0 (push v) := by
  rintro s - ip ⟨⟩

theorem pushNew_needs (text : String) : Needs 0 (pushNew text) := by
  rintro s - ip ⟨⟩

theorem setSlot_needs (index : Nat) (v : Value) : Needs 0 (setSlot index v) := by
  rintro s - ip ⟨⟩

theorem print_needs (text : String) : Needs 0 (print text) := by
  rintro s - ip ⟨⟩

theorem pop_needs : Needs 1 pop := by
  intro s hs ip h
  rw [pop] at h
  split at h
  case h_1 hempty =>
    rw [hempty] at hs
    exact absurd hs (by decide)
  · cases h

theorem top_needs : Needs 1 top := by
  intro s hs ip h
  rw [top] at h
  split at h
  case h_1 hempty =>
    rw [hempty] at hs
    exact absurd hs (by decide)
  · cases h

theorem popInt_needs : Needs 1 popInt := by
  refine pop_needs.followed fun v => ?_
  cases v with
  | int n => exact .pure
  | _ => exact Needs.get.followed fun _ => .fault fun _ => Fault.noConfusion

theorem popBool_needs : Needs 1 popBool := by
  refine pop_needs.followed fun v => ?_
  cases v with
  | bool b => exact .pure
  | _ => exact Needs.get.followed fun _ => .fault fun _ => Fault.noConfusion

theorem retain_needs (v : Value) : Needs 0 (retain v) := by
  cases v with
  | heap id =>
      intro s _ ip h
      simp only [retain] at h
      split at h <;> cases h
  | _ => exact .pure

theorem release_needs (v : Value) : Needs 0 (release v) := by
  cases v with
  | heap id =>
      intro s _ ip h
      simp only [release] at h
      split at h <;> cases h
  | _ => exact .pure

theorem textOf_needs (p : Program) (v : Value) : Needs 0 (textOf p v) := by
  intro s _ ip h
  cases v with
  | const index | heap id =>
      simp only [textOf] at h
      split at h <;> cases h
  | _ => cases h

theorem shown_needs (p : Program) (v : Value) : Needs 0 (shown p v) := by
  rw [shown]
  split
  · exact textOf_needs p v
  · exact .pure

theorem slot_needs (arg : Int64) : Needs 0 (slot arg) := by
  intro s _ ip h
  rw [slot] at h
  split at h
  · cases h
  · split at h <;> cases h

theorem jump_needs (label : Int64) : Needs 0 (jump m label) := by
  intro s _ ip h
  rw [jump] at h
  split at h
  · cases h
  · split at h <;> cases h

theorem arith_needs (f : Int64 → Int64 → Int64) : Needs 2 (arith f) :=
  popInt_needs.bind popInt_shifts fun _ => popInt_needs.followed fun _ => push_needs _

theorem compare_needs (f : Int64 → Int64 → Bool) : Needs 2 (compare f) :=
  popInt_needs.bind popInt_shifts fun _ => popInt_needs.followed fun _ => push_needs _

theorem logic_needs (f : Bool → Bool → Bool) : Needs 2 (logic f) :=
  popBool_needs.bind popBool_shifts fun _ => popBool_needs.followed fun _ => push_needs _

theorem divide_needs (f : Int64 → Int64 → Int64) (cause : RuntimeCause) : Needs 2 (divide f cause) := by
  refine popInt_needs.bind popInt_shifts fun b => popInt_needs.followed fun a => ?_
  split
  · exact Needs.get.followed fun _ => .pure
  · exact (push_needs _).followed fun _ => .pure

theorem equality_needs (wanted : Bool) : Needs 2 (equality wanted) := by
  refine pop_needs.bind pop_shifts fun b => pop_needs.followed fun a => ?_
  cases equal? a b with
  | some same => exact push_needs _
  | none => exact Needs.get.followed fun _ => .fault fun _ => Fault.noConfusion

theorem stringify_needs : Needs 1 stringify := by
  refine pop_needs.followed fun v => ?_
  cases v with
  | const index | heap id => exact push_needs _
  | _ => exact pushNew_needs _

theorem popTexts_needs (p : Program) : Needs 2 (popTexts p) :=
  pop_needs.bind pop_shifts fun b => pop_needs.followed fun a =>
    (textOf_needs p a).followed fun _ => (textOf_needs p b).followed fun _ =>
      (release_needs a).followed fun _ => (release_needs b).followed fun _ => .pure

theorem write_needs (p : Program) (behind : String) : Needs 1 (write p behind) :=
  pop_needs.followed fun v => (shown_needs p v).followed fun _ => (print_needs _).followed fun _ => release_needs v

/-- One case for each operation: it needs as many values as it pops. -/
theorem instr_needs {i : Instr} {op : Op} (hop : i.op? = some op) : Needs op.pops (instr m i) := by
  have done : ∀ {γ : Type} (_ : γ), Needs 0 (pure none : Exec (Option RuntimeError)) := fun _ => .pure
  rw [instr, hop]
  cases op with
  | pushInt | pushBool | pushUnit | pushString => exact (push_needs _).followed done
  | pop => exact pop_needs.followed fun v => (release_needs v).followed done
  | load =>
      exact (slot_needs _).followed fun v => (retain_needs v.2).followed fun _ => (push_needs _).followed done
  | declare =>
      exact pop_needs.followed fun _ => (slot_needs _).followed fun v =>
        (release_needs v.2).followed fun _ => (setSlot_needs _ _).followed done
  | assign =>
      exact top_needs.followed fun v => (retain_needs v).followed fun _ => (slot_needs _).followed fun w =>
        (release_needs w.2).followed fun _ => (setSlot_needs _ _).followed done
  | neg => exact popInt_needs.followed fun _ => (push_needs _).followed done
  | not => exact popBool_needs.followed fun _ => (push_needs _).followed done
  | stringify => exact stringify_needs.followed done
  | add | sub | mul => exact (arith_needs _).followed done
  | div | rem => exact divide_needs _ _
  | and | or => exact (logic_needs _).followed done
  | eq | ne => exact (equality_needs _).followed done
  | lt | le | gt | ge => exact (compare_needs _).followed done
  | strEq | strNe => exact (popTexts_needs _).followed fun _ => (push_needs _).followed done
  | append => exact (popTexts_needs _).followed fun _ => (pushNew_needs _).followed done
  | write | writeln => exact (write_needs _ _).followed done
  | label => exact .pure
  | jump => exact (jump_needs _).followed done
  | jumpFalse =>
      refine popBool_needs.followed fun b => ?_
      cases b with
      | true => exact .pure
      | false => exact (jump_needs _).followed done

theorem Does.shift {op : Op} {arg : Int64} (h : Does m op arg s none t) : Shift op.pops op.pushes s.stack t.stack := by
  cases h with
  | goes _ _ hshift => exact hshift
  | jumps _ _ hshift => exact hshift

/-- The table of the operations is right about every instruction in every state. With as many values as are popped,
none is missing. An instruction that is done found these values, changed their number by its effect, and left alone
what lies below them. A run-time error is that of a division or a remainder, which has removed its two operands and
changed nothing else. -/
theorem instr_meets_table {i : Instr} {op : Op} (hop : i.op? = some op) (m : Machine) (s : MachineState) :
    (op.pops ≤ s.stack.length → ∀ ip, (instr m i).run s ≠ .error (.underflow ip)) ∧
    (∀ t, (instr m i).run s = .ok (none, t) →
      op.pops ≤ s.stack.length ∧ (t.stack.length : Int) = s.stack.length + op.effect ∧
        ∀ place < s.stack.length - op.pops, t.stack.reverse[place]? = s.stack.reverse[place]?) ∧
    ∀ e t, (instr m i).run s = .ok (some e, t) →
      (op = .div ∨ op = .rem) ∧ (∃ b a, s.stack = b :: a :: t.stack) ∧
        t.slots = s.slots ∧ t.heap = s.heap ∧ t.output = s.output := by
  refine ⟨instr_needs hop s, fun t h => ?_, fun e t h => ?_⟩
  · have hshift := (op_does hop h).shift
    obtain ⟨hpops, hlength⟩ := hshift.length_eq
    exact ⟨hpops, hlength, fun place hplace => hshift.getElem?_reverse hplace⟩
  · cases op_does hop h with
    | fails hcause hstack =>
        exact ⟨hcause.imp And.left And.left, ⟨_, _, hstack⟩, rfl, rfl, rfl⟩

/-- An assignment of a counted string over another, and a division by zero, above a value that stays. -/
theorem instr_meets_table_assign_div :
    let m : Machine := ⟨{}, #[]⟩
    let heap : Heap := { records := #[some ⟨"a", 1⟩, some ⟨"b", 1⟩] }
    let s : MachineState := { ip := 3, stack := [.heap 0, .unit], slots := #[.heap 1], heap }
    let t : MachineState :=
      { s with slots := #[.heap 0], heap := { records := #[some ⟨"a", 2⟩, none], free := [1] } }
    let s' : MachineState := { ip := 3, stack := [.int 0, .int 7, .unit], slots := #[.heap 1], heap, output := "x" }
    (Instr.of .assign 0).op? = some .assign ∧ (Instr.of .div 0).op? = some .div ∧
      (instr m (Instr.of .assign 0)).run s = .ok (none, t) ∧
      (t.stack.length : Int) = s.stack.length + Op.assign.effect ∧ t.stack.reverse[0]? = s.stack.reverse[0]? ∧
      (∀ ip, (instr m (Instr.of .div 0)).run s' ≠ .error (.underflow ip)) ∧
      ∃ t', (instr m (Instr.of .div 0)).run s' = .ok (some ⟨3, .divisionByZero⟩, t') ∧
        (∃ b a, s'.stack = b :: a :: t'.stack) ∧ t'.slots = s'.slots ∧ t'.heap = s'.heap ∧ t'.output = s'.output := by
  intro m heap s t s'
  have hassign : (instr m (Instr.of .assign 0)).run s = .ok (none, t) := by decide +kernel
  have hdiv : (instr m (Instr.of .div 0)).run s' = .ok (some ⟨3, .divisionByZero⟩, { s' with stack := [.unit] }) := by
    decide +kernel
  obtain ⟨-, hdone, -⟩ := instr_meets_table (Instr.op?_of .assign 0) m s
  obtain ⟨hfound, -, hfailed⟩ := instr_meets_table (Instr.op?_of .div 0) m s'
  obtain ⟨-, hlength, hbelow⟩ := hdone t hassign
  exact ⟨rfl, rfl, hassign, hlength, hbelow 0 (by decide), hfound (by decide), _, hdiv, (hfailed _ _ hdiv).2⟩

end Exec

end BlockLang

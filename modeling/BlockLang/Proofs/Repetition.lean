import BlockLang.Proofs.Correctness

/-! Running a machine again. A machine that has halted has the slots and the stack that it began with,
but its heap remembers the numbers that were freed, so its next run gives other numbers to its strings.
No run depends on these numbers: two states that are the same on the plain machine take the same
steps, so every run of a machine ends as its first one did, with the same error and the same
output. -/

namespace BlockLang

namespace Plain

/-- An instruction that goes on leaves `count` slots behind. -/
def HasSlots (count : Nat) (x : Effect) : Prop := ∀ e t, x = some (e, t) → t.slots.size = count

namespace HasSlots

variable {α : Type} {count : Nat} {s : State} {stack : List Value}

theorem none : HasSlots count none := by
  rintro _ _ ⟨⟩

theorem next (h : s.slots.size = count) : HasSlots count (next s) := by
  rintro _ _ ⟨⟩
  exact h

theorem bind {o : Option α} {f : α → Effect} (hf : ∀ a, HasSlots count (f a)) :
    HasSlots count (o >>= f) := by
  cases o with
  | none => exact none
  | some a => exact hf a

theorem onTop {k : Value → List Value → Effect} (hk : ∀ v rest, HasSlots count (k v rest)) :
    HasSlots count (onTop stack k) := by
  cases stack with
  | nil => exact none
  | cons v rest => exact hk v rest

theorem onTwo {k : Value → Value → List Value → Effect}
    (hk : ∀ a b rest, HasSlots count (k a b rest)) : HasSlots count (onTwo stack k) :=
  onTop fun _ _ => onTop fun _ _ => hk _ _ _

theorem onInt {k : Int64 → List Value → Effect} (hk : ∀ a rest, HasSlots count (k a rest)) :
    HasSlots count (onInt stack k) := by
  unfold Plain.onInt
  split
  · exact hk _ _
  · exact none

theorem onBool {k : Bool → List Value → Effect} (hk : ∀ a rest, HasSlots count (k a rest)) :
    HasSlots count (onBool stack k) := by
  unfold Plain.onBool
  split
  · exact hk _ _
  · exact none

theorem onInts {k : Int64 → Int64 → List Value → Effect}
    (hk : ∀ a b rest, HasSlots count (k a b rest)) : HasSlots count (onInts stack k) :=
  onInt fun _ _ => onInt fun _ _ => hk _ _ _

theorem onBools {k : Bool → Bool → List Value → Effect}
    (hk : ∀ a b rest, HasSlots count (k a b rest)) : HasSlots count (onBools stack k) :=
  onBool fun _ _ => onBool fun _ _ => hk _ _ _

theorem onTexts {p : Program} {k : String → String → List Value → Effect}
    (hk : ∀ a b rest, HasSlots count (k a b rest)) : HasSlots count (onTexts stack p k) :=
  onTwo fun _ _ _ => bind fun _ => bind fun _ => hk _ _ _

end HasSlots

variable {m : Machine} {s : State}

theorem divide_hasSlots (f : Int64 → Int64 → Int64) (cause : RuntimeCause) :
    HasSlots s.slots.size (divide s f cause) := by
  refine .onInts fun a b rest => ?_
  split
  · rintro _ _ ⟨⟩
    rfl
  · exact .next rfl

theorem store_hasSlots (arg : Int64) (v : Value) (stack : List Value) :
    HasSlots s.slots.size (store s arg v stack) := by
  refine .bind fun index => ?_
  split
  · exact .next Array.size_setIfInBounds
  · exact .none

theorem jump_hasSlots (label : Int64) : HasSlots s.slots.size (jump m label s) :=
  .bind fun _ => .next rfl

/-- One case for each operation: only a slot that is there is written to. -/
theorem perform_hasSlots (op : Op) (arg : Int64) : HasSlots s.slots.size (perform m s op arg) := by
  cases op with
  | pushInt | pushBool | pushUnit | pushString | label => exact .next rfl
  | pop | stringify => exact .onTop fun _ _ => .next rfl
  | load => exact .bind fun _ => .bind fun _ => .next rfl
  | declare | assign => exact .onTop fun _ _ => store_hasSlots _ _ _
  | neg => exact .onInt fun _ _ => .next rfl
  | not => exact .onBool fun _ _ => .next rfl
  | add | sub | mul | lt | le | gt | ge => exact .onInts fun _ _ _ => .next rfl
  | div | rem => exact divide_hasSlots _ _
  | and | or => exact .onBools fun _ _ _ => .next rfl
  | eq | ne => exact .onTwo fun _ _ _ => .bind fun _ => .next rfl
  | strEq | strNe | append => exact .onTexts fun _ _ _ => .next rfl
  | write | writeln => exact .onTop fun _ _ => .bind fun _ => .next rfl
  | jump => exact jump_hasSlots arg
  | jumpFalse =>
      refine .onBool fun a rest => ?_
      split
      · exact .next rfl
      · exact jump_hasSlots arg

def StepResult.state : StepResult → State
  | running s | ended _ s => s

/-- No step adds or removes slots. -/
theorem step_slots {r : StepResult} (h : step m s = some r) : r.state.slots.size = s.slots.size := by
  rw [step] at h
  cases hi : m.program.instrs[s.ip]? with
  | none =>
      rw [hi] at h
      cases h
      rfl
  | some i =>
      have hinstr : HasSlots s.slots.size (instr m i s) := .bind fun op => perform_hasSlots op i.arg
      simp only [hi] at h
      rcases hr : instr m i s with _ | ⟨_ | e, t⟩
      · rw [hr] at h
        cases h
      · rw [hr] at h
        cases h
        exact hinstr _ t hr
      · rw [hr] at h
        cases h
        exact hinstr _ t hr

/-- Takes at most a number of steps. -/
def loop (m : Machine) : Nat → State → Option StepResult
  | 0, s => some (.running s)
  | n + 1, s =>
    match step m s with
    | some (.running s) => loop m n s
    | result => result

/-- What a step keeps, a run keeps. -/
theorem loop_slots {n : Nat} {r : StepResult} (h : loop m n s = some r) :
    r.state.slots.size = s.slots.size := by
  induction n generalizing s with
  | zero =>
      cases h
      rfl
  | succ n ih =>
      rw [loop] at h
      split at h
      case h_1 t ht => exact (ih h).trans (step_slots ht)
      case h_2 => exact step_slots h

/-- The state in which every run begins. -/
def State.initial (slots : Nat) : State := ⟨0, [], Array.replicate slots .unit, ""⟩

end Plain

/-- What steps lead to on the plain machine. -/
def StepResult.plain? : StepResult → Option Plain.StepResult
  | running s => some (.running s.plain)
  | ended e s => some (.ended e s.plain)
  | faulty _ => none

theorem StepResult.eq_ended_of_plain? {r : StepResult} {e : Option RuntimeError} {t : Plain.State}
    (h : r.plain? = some (.ended e t)) : ∃ s, r = .ended e s ∧ s.plain = t := by
  cases r with
  | ended e s =>
      cases h
      exact ⟨s, rfl, rfl⟩
  | running s | faulty f => cases h

namespace Machine

variable {m : Machine} {s start : MachineState}

/-- Wherever the heap keeps the strings, the plain machine takes the same steps. -/
theorem loop_plain (hc : s.Counted []) (n : Nat) : (m.loop n s).plain? = Plain.loop m n s.plain := by
  induction n generalizing s with
  | zero => rfl
  | succ n ih =>
      have hstep := step_counted (m := m) hc
      rw [loop, Plain.loop]
      cases hr : m.step s with
      | running t =>
          rw [hr] at hstep
          rw [hstep.2]
          exact ih hstep.1
      | ended e t | faulty f =>
          rw [hr] at hstep
          rw [hstep.2]
          rfl

/-- A run that has halted took its steps to the end, and gave up what it held. -/
theorem loop_of_run_halted {trace leakCheck : Bool} {limit : Nat} {e : Option RuntimeError}
    {t : MachineState} (h : (m.run trace leakCheck limit s).ending = .halted e t) :
    ∃ s', m.loop limit s = .ended e s' ∧ halt s' = .ok t := by
  rw [run] at h
  cases hr : m.loop limit s with
  | running s' | faulty f =>
      rw [hr] at h
      cases h
  | ended e' s' =>
      rw [hr] at h
      simp only [finish] at h
      cases hh : halt s' with
      | error f =>
          rw [hh] at h
          cases h
      | ok t' =>
          simp only [hh] at h
          split at h
          · cases h
          · cases h
            exact ⟨s', rfl, hh⟩

/-- The states in which the runs of a machine begin: the first one, and what is left of a run that has
halted. -/
inductive Begins (m : Machine) (start : MachineState) : MachineState → Prop where
  | first : Begins m start start
  | again {s t : MachineState} {trace leakCheck : Bool} {limit : Nat} {e : Option RuntimeError} :
      Begins m start s → (m.run trace leakCheck limit s).ending = .halted e t →
      Begins m start (restart t)

/-- Every run begins with a counted heap, and in the same state of the plain machine. -/
theorem Begins.initial {p : Program} (hnew : new p = .ok (m, start)) (hs : m.Begins start s) :
    s.Counted [] ∧ s.plain = .initial p.slotCount.toInt.toNat := by
  induction hs with
  | first =>
      refine ⟨new_counted hnew, ?_⟩
      rw [new_state hnew]
      simp [MachineState.plain, Plain.State.initial, Value.plain]
  | @again s t _ _ limit e _ hrun ih =>
      obtain ⟨hc, hplain⟩ := ih
      obtain ⟨s', hloop, hhalt⟩ := loop_of_run_halted hrun
      have hc' := loop_counted (m := m) hc limit
      have hplain' := loop_plain (m := m) hc limit
      rw [hloop] at hc' hplain'
      obtain ⟨h, hh, hsound, hcounts⟩ := halt_counted hc'
      have hsize : s'.slots.size = p.slotCount.toInt.toNat := calc
        s'.slots.size = s'.plain.slots.size := Array.size_map.symm
        _ = s.plain.slots.size := Plain.loop_slots hplain'.symm
        _ = p.slotCount.toInt.toNat := by rw [hplain]; exact Array.size_replicate
      rw [hh] at hhalt
      cases hhalt
      refine ⟨⟨hsound, hcounts.congr fun id => ?_⟩, ?_⟩
      · simp [MachineState.roots, restart, List.count_eq_zero]
      · simp [MachineState.plain, restart, Plain.State.initial, Value.plain, hsize,
          Array.map_const']

/-- Once the first run of a machine has halted, by itself or with a run-time error, every further run
that is allowed as many steps halts with the same error and the same output. -/
theorem run_again {p : Program} (hnew : new p = .ok (m, start)) {trace leakCheck : Bool} {limit : Nat}
    {e : Option RuntimeError} {t : MachineState}
    (hfirst : (m.run trace leakCheck limit start).ending = .halted e t) (hs : m.Begins start s)
    (trace' leakCheck' : Bool) {limit' : Nat} (hlimit : limit ≤ limit') :
    ∃ t', (m.run trace' leakCheck' limit' s).ending = .halted e t' ∧ t'.output = t.output := by
  obtain ⟨hc₀, hplain₀⟩ := Begins.first.initial hnew
  obtain ⟨hc, hplain⟩ := hs.initial hnew
  obtain ⟨u, hloop, hhalt⟩ := loop_of_run_halted hfirst
  have hout : t.output = u.output := by
    have hcu := loop_counted (m := m) hc₀ limit
    rw [hloop] at hcu
    obtain ⟨h, hh, -⟩ := halt_counted hcu
    rw [hh] at hhalt
    cases hhalt
    rfl
  have hsame : (m.loop limit' s).plain? = some (.ended e u.plain) := calc
    (m.loop limit' s).plain? = Plain.loop m limit' start.plain := by rw [loop_plain hc, hplain, hplain₀]
    _ = (m.loop limit' start).plain? := (loop_plain hc₀ limit').symm
    _ = some (.ended e u.plain) := by rw [loop_of_ended hloop hlimit]; rfl
  obtain ⟨u', hloop', hu⟩ := StepResult.eq_ended_of_plain? hsame
  have hrun := run_ending (m := m) hc trace' leakCheck' limit'
  rw [hloop'] at hrun
  obtain ⟨t', hending, -, -, -, hout'⟩ := hrun
  refine ⟨t', hending, ?_⟩
  calc t'.output = u'.plain.output := hout'
    _ = u.plain.output := by rw [hu]
    _ = t.output := hout.symm

/-- A run that makes strings and then divides by zero. The numbers that it has freed are handed out in
another order when it is repeated. -/
theorem run_again_freed :
    let p : Program :=
      { code := some #[.of .pushInt 1, .of .stringify 0, .of .pushBool 1, .of .stringify 0,
          .of .append 0, .of .writeln 0, .of .pushInt 1, .of .pushInt 0, .of .div 0] }
    let m : Machine := ⟨p, #[]⟩
    let e : RuntimeError := ⟨8, .divisionByZero⟩
    let t : MachineState :=
      { ip := 8, slots := #[], heap := ⟨#[none, none], [1, 0]⟩, output := "1true\n" }
    new p = .ok (m, { slots := #[] }) ∧
      (m.run false true 9 { slots := #[] }).ending = .halted (some e) t ∧
      m.Begins { slots := #[] } (restart t) ∧
      ∃ t', (m.run true true 100 (restart t)).ending = .halted (some e) t' ∧
        t'.output = "1true\n" := by
  intro p m e t
  have hnew : new p = .ok (m, { slots := #[] }) := rfl
  have hfirst : (m.run false true 9 { slots := #[] }).ending = .halted (some e) t := by
    decide +kernel
  have hs : m.Begins { slots := #[] } (restart t) := .again .first hfirst
  exact ⟨hnew, hfirst, hs, run_again hnew hfirst hs true true (by decide)⟩

end Machine

end BlockLang

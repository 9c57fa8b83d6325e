import BlockLang.Proofs.Counting

/-! Runs of the counted machine. Every state of every run counts its heap, also when the machine is
run again after it has halted; so no run asks for a record that is not there, and a machine that
halts, by itself or because of a run-time error, leaves no record behind. -/

namespace BlockLang

/-- A record is live if and only if it occurs on the stack or in a slot, and its count is the number
of its occurrences. -/
def MachineState.RefsExact (s : MachineState) : Prop :=
  ∀ id, ((s.heap.find? id).isSome ↔ .heap id ∈ s.stack ∨ .heap id ∈ s.slots) ∧
    ∀ r, s.heap.find? id = some r → r.refs = s.stack.count (.heap id) + s.slots.count (.heap id)

/-- In a counted state, each record is counted as often as stack and slots name it. -/
theorem MachineState.Counted.refsExact {s : MachineState} (hc : s.Counted []) : s.RefsExact := by
  intro id
  have hcount := hc.counts id
  have hroots : (s.roots []).count (.heap id) =
      s.stack.count (.heap id) + s.slots.count (.heap id) := by
    simp [MachineState.roots]
  have hmem : .heap id ∈ s.stack ∨ .heap id ∈ s.slots ↔
      s.stack.count (.heap id) + s.slots.count (.heap id) ≠ 0 := by
    rw [← List.count_pos_iff, ← Array.count_pos_iff]
    omega
  rw [hroots] at hcount
  rw [hmem]
  cases hr : s.heap.find? id with
  | none =>
      rw [hr, Option.map_none] at hcount
      have hzero : s.stack.count (.heap id) + s.slots.count (.heap id) = 0 := by
        by_contra hne
        rw [if_neg hne] at hcount
        cases hcount
      exact ⟨iff_of_false Bool.false_ne_true fun hne => hne hzero, by simp⟩
  | some r =>
      rw [hr, Option.map_some] at hcount
      have hne : s.stack.count (.heap id) + s.slots.count (.heap id) ≠ 0 := by
        intro hzero
        rw [if_pos hzero] at hcount
        cases hcount
      rw [if_neg hne, Option.some.injEq] at hcount
      refine ⟨iff_of_true rfl hne, fun r' hr' => ?_⟩
      cases hr'
      exact hcount

/-- What steps lead to: a counted heap, or a fault that is none of the heap. -/
def StepResult.Counted : StepResult → Prop
  | running s | ended _ s => s.Counted []
  | faulty f => ¬f.OfHeap

namespace Machine

/-- The states of a machine: the first one, what a step leads to, and, once a run has ended and
everything has been given up, the first one of the next run. -/
inductive Reachable (m : Machine) (start : MachineState) : MachineState → Prop where
  | start : Reachable m start start
  | step {s s' : MachineState} : Reachable m start s → m.step s = .running s' →
      Reachable m start s'
  | again {s s' s'' : MachineState} {e : Option RuntimeError} : Reachable m start s →
      m.step s = .ended e s' → halt s' = .ok s'' → Reachable m start (restart s'')

variable {m : Machine} {s : MachineState} {hand : List Value}

/-- A step keeps the counts exact and does what the plain machine does; it never fails over the heap. -/
theorem step_counted (hc : s.Counted []) :
    match m.step s with
    | .running s' => s'.Counted [] ∧ Plain.step m s.plain = some (.running s'.plain)
    | .ended e s' => s'.Counted [] ∧ Plain.step m s.plain = some (.ended e s'.plain)
    | .faulty f => ¬f.OfHeap ∧ Plain.step m s.plain = none := by
  have hip : s.plain.ip = s.ip := rfl
  rw [step, Plain.step, hip]
  cases m.program.instrs[s.ip]? with
  | none => exact ⟨hc, rfl⟩
  | some i =>
      have hi := Exec.mirrors_instr (m := m) hc i
      simp only [StateT.run]
      cases hrun : Exec.instr m i s with
      | error f =>
          rw [hrun] at hi
          obtain ⟨hof, hplain⟩ := hi
          rw [hplain]
          exact ⟨hof, rfl⟩
      | ok r =>
          obtain ⟨e, s'⟩ := r
          rw [hrun] at hi
          obtain ⟨hc', hplain⟩ := hi
          rw [hplain]
          cases e with
          | none => exact ⟨⟨hc'.sound, hc'.counts⟩, rfl⟩
          | some e => exact ⟨hc', rfl⟩

theorem running_counted {s' : MachineState} (hc : s.Counted []) (h : m.step s = .running s') :
    s'.Counted [] := by
  have hstep := step_counted (m := m) hc
  rw [h] at hstep
  exact hstep.1

theorem ended_counted {s' : MachineState} {e : Option RuntimeError} (hc : s.Counted [])
    (h : m.step s = .ended e s') : s'.Counted [] := by
  have hstep := step_counted (m := m) hc
  rw [h] at hstep
  exact hstep.1

/-- The counts are exact all along a run. -/
theorem loop_counted (hc : s.Counted []) (n : Nat) : (m.loop n s).Counted := by
  induction n generalizing s with
  | zero => exact hc
  | succ n ih =>
      have hstep := step_counted (m := m) hc
      rw [loop]
      cases hs : m.step s with
      | running s' =>
          rw [hs] at hstep
          exact ih hstep.1
      | ended e s' =>
          rw [hs] at hstep
          exact hstep.1
      | faulty f =>
          rw [hs] at hstep
          exact hstep.1

theorem releaseAll_counted {vs : List Value} (hc : s.Counted (vs ++ hand)) :
    ∃ h : Heap, (∀ t : MachineState, t.heap = s.heap →
        releaseAll vs t = .ok ((), { t with heap := h })) ∧
      { s with heap := h }.Counted hand := by
  induction vs generalizing s with
  | nil => exact ⟨s.heap, fun t ht => by rw [← ht]; rfl, hc⟩
  | cons v vs ih =>
      obtain ⟨h₁, hrel, hc₁, -⟩ := Exec.release_counted hc
      obtain ⟨h₂, hall, hc₂⟩ := ih hc₁
      refine ⟨h₂, fun t ht => ?_, hc₂⟩
      rw [releaseAll, Exec.bind_apply, hrel t ht]
      exact hall { t with heap := h₁ } rfl

/-- A machine that halts gives up all that its heap holds. -/
theorem halt_counted (hc : s.Counted []) :
    ∃ h : Heap, halt s = .ok { s with stack := [], slots := s.slots.map fun _ => .unit, heap := h } ∧
      h.Sound ∧ h.Counts [] := by
  have hstack : { s with stack := [], slots := #[] }.Counted
      (s.stack.reverse ++ s.slots.toList) := by
    refine hc.congr rfl fun id => ?_
    simp [MachineState.roots]
  obtain ⟨h₁, hrel₁, hc₁⟩ := releaseAll_counted hstack
  have hslots : { s with stack := [], slots := #[], heap := h₁ }.Counted (s.slots.toList ++ []) := by
    rwa [List.append_nil]
  obtain ⟨h₂, hrel₂, hc₂⟩ := releaseAll_counted hslots
  refine ⟨h₂, ?_, hc₂.sound, hc₂.counts⟩
  have hslots := hrel₂ { s with stack := [], heap := h₁ } rfl
  simp only [halt, StateT.run, bind, Except.bind, hrel₁ s rfl, hslots]
  rfl

/-- Where nothing is named, no record is live. -/
theorem live_eq_zero {h : Heap} (hc : h.Counts []) : h.live = 0 := by
  have hnone : ∀ r ∈ h.records.toList, r = none := by
    intro r hr
    obtain ⟨id, hid, hget⟩ := List.getElem_of_mem hr
    have hcount := hc id
    rw [List.count_nil, if_pos rfl, Option.map_eq_none_iff] at hcount
    cases r with
    | none => rfl
    | some r =>
        have hfind : h.find? id = some r := by
          rw [Heap.find?_eq_some, ← Array.getElem?_toList, List.getElem?_eq_getElem hid, hget]
        rw [hfind] at hcount
        cases hcount
  rw [Heap.live, ← Array.foldl_toList]
  generalize h.records.toList = rs at hnone
  induction rs with
  | nil => rfl
  | cons r rs ih =>
      rw [List.foldl_cons, hnone r List.mem_cons_self]
      exact ih fun r hr => hnone r (List.mem_cons_of_mem _ hr)

theorem new_state {p : Program} (hnew : new p = .ok (m, s)) :
    s = { slots := Array.replicate p.slotCount.toInt.toNat .unit } := by
  rw [new] at hnew
  split_ifs at hnew
  split at hnew
  · cases hnew
  · cases hnew
    rfl

/-- A fresh machine counts its empty heap. -/
theorem new_counted {p : Program} (hnew : new p = .ok (m, s)) : s.Counted [] := by
  rw [new_state hnew]
  refine ⟨Heap.sound_empty, Heap.counts_empty fun id => ?_⟩
  simp [MachineState.roots, List.count_replicate]

/-- Every state of every run counts its heap: what a step keeps, a run keeps. -/
theorem Reachable.counted {start : MachineState} (hstart : start.Counted [])
    (hs : m.Reachable start s) : s.Counted [] := by
  induction hs with
  | start => exact hstart
  | step _ hstep ih => exact running_counted ih hstep
  | again _ hended hhalt ih =>
      obtain ⟨h, hh, hsound, hcounts⟩ := halt_counted (ended_counted ih hended)
      rw [hh] at hhalt
      cases hhalt
      refine ⟨hsound, hcounts.congr fun id => ?_⟩
      simp [MachineState.roots, restart, List.count_eq_zero]

/-- A run that has ended halts, whether or not leaks are looked for, and leaves nothing behind. -/
theorem finish_ended (leakCheck : Bool) (before : List Moment) (e : Option RuntimeError)
    (hc : s.Counted []) :
    ∃ t, (finish leakCheck before (.ended e s)).ending = .halted e t ∧ t.stack = [] ∧
      (∀ v ∈ t.slots, v = .unit) ∧ t.heap.live = 0 ∧ t.output = s.output := by
  obtain ⟨h, hh, -, hcounts⟩ := halt_counted hc
  have hlive := live_eq_zero hcounts
  refine ⟨{ s with stack := [], slots := s.slots.map fun _ => .unit, heap := h }, ?_, rfl, ?_,
    hlive, rfl⟩
  · simp [finish, hh, hlive]
  · intro v hv
    obtain ⟨_, _, rfl⟩ := Array.mem_map.mp hv
    rfl

/-- How a run is reported: whatever has ended halts and leaves nothing behind. -/
theorem run_ending (hc : s.Counted []) (trace leakCheck : Bool) (limit : Nat) :
    match m.loop limit s with
    | .running s' => (m.run trace leakCheck limit s).ending = .unfinished s'
    | .ended e s' => ∃ t, (m.run trace leakCheck limit s).ending = .halted e t ∧ t.stack = [] ∧
        (∀ v ∈ t.slots, v = .unit) ∧ t.heap.live = 0 ∧ t.output = s'.output
    | .faulty f => (m.run trace leakCheck limit s).ending = .faulty f ∧ ¬f.OfHeap := by
  have hloop := loop_counted (m := m) hc limit
  rw [run]
  cases hr : m.loop limit s with
  | running s' => rfl
  | faulty f =>
      rw [hr] at hloop
      exact ⟨rfl, hloop⟩
  | ended e s' =>
      rw [hr] at hloop
      exact finish_ended leakCheck (⟨entry .info (m.startMessage s), s⟩ ::
        if trace then (m.moments limit s []).reverse else []) e hloop

/-- A run that goes wrong went wrong in a step. -/
theorem loop_of_run_faulty {trace leakCheck : Bool} {limit : Nat} {f : Fault} (hc : s.Counted [])
    (h : (m.run trace leakCheck limit s).ending = .faulty f) :
    m.loop limit s = .faulty f ∧ ¬f.OfHeap := by
  have hending := run_ending (m := m) hc trace leakCheck limit
  cases hr : m.loop limit s with
  | running s' =>
      rw [hr] at hending
      rw [hending] at h
      cases h
  | ended e s' =>
      rw [hr] at hending
      obtain ⟨t, hending, -⟩ := hending
      rw [hending] at h
      cases h
  | faulty f' =>
      rw [hr] at hending
      rw [hending.1] at h
      cases h
      exact ⟨rfl, hending.2⟩

/-- In every state of every run of every program, also in one that a run-time error has left, the
counts are exact. So no step asks for a record that is not live; a run that ends, by itself or with a
run-time error, ends with an empty stack, slots that hold nothing and an empty heap; and no run finds
strings that leaked. -/
theorem refs_eq_occurrences {p : Program} {start : MachineState} (hnew : new p = .ok (m, start))
    (hs : m.Reachable start s) :
    s.RefsExact ∧ (∀ e s', m.step s = .ended e s' → s'.RefsExact) ∧
    (∀ id, m.step s ≠ .faulty (.notLive id)) ∧
    ∀ trace leakCheck limit,
      (∀ id, (m.run trace leakCheck limit s).ending ≠ .faulty (.notLive id)) ∧
      (∀ count, (m.run trace leakCheck limit s).ending ≠ .faulty (.leaked count)) ∧
      (∀ e s', m.loop limit s = .ended e s' →
        ∃ t, (m.run trace leakCheck limit s).ending = .halted e t) ∧
      ∀ e t, (m.run trace leakCheck limit s).ending = .halted e t →
        t.stack = [] ∧ (∀ v ∈ t.slots, v = .unit) ∧ t.heap.live = 0 := by
  have hc := hs.counted (new_counted hnew)
  refine ⟨hc.refsExact, fun e s' hended => (ended_counted hc hended).refsExact, fun id hstep => ?_,
    fun trace leakCheck limit => ?_⟩
  · have hfault := step_counted (m := m) hc
    rw [hstep] at hfault
    exact hfault.1 trivial
  have hrun := run_ending (m := m) hc trace leakCheck limit
  cases hr : m.loop limit s with
  | running s' =>
      rw [hr] at hrun
      simp [hrun]
  | faulty f =>
      rw [hr] at hrun
      obtain ⟨hending, hof⟩ := hrun
      rw [hending]
      refine ⟨fun id hid => ?_, fun count hid => ?_, by simp, by simp⟩
      · cases hid
        exact hof trivial
      · cases hid
        exact hof trivial
  | ended e s' =>
      rw [hr] at hrun
      obtain ⟨t, hending, hempty, hunit, hlive, -⟩ := hrun
      rw [hending]
      refine ⟨by simp, by simp, ?_, ?_⟩
      · rintro e' s'' heq
        cases heq
        exact ⟨t, rfl⟩
      · rintro e' t' heq
        cases heq
        exact ⟨hempty, hunit, hlive⟩

/-- A string that was made at run time, once on the stack and once in a slot. -/
theorem refs_eq_occurrences_assigned :
    let p : Program :=
      { code := some #[.of .pushBool 1, .of .stringify 0, .of .assign 0], slotCount := 1 }
    let s : MachineState :=
      { ip := 3, stack := [.heap 0], slots := #[.heap 0], heap := ⟨#[some ⟨"true", 2⟩], []⟩ }
    new p = .ok (⟨p, #[]⟩, { slots := #[.unit] }) ∧ Reachable ⟨p, #[]⟩ { slots := #[.unit] } s ∧
      s.RefsExact := by
  intro p s
  have hnew : new p = .ok (⟨p, #[]⟩, { slots := #[.unit] }) := rfl
  have hpushed : Reachable ⟨p, #[]⟩ { slots := #[.unit] }
      { ip := 1, stack := [.bool true], slots := #[.unit] } := .step .start rfl
  have hmade : Reachable ⟨p, #[]⟩ { slots := #[.unit] }
      { ip := 2, stack := [.heap 0], slots := #[.unit], heap := ⟨#[some ⟨"true", 1⟩], []⟩ } :=
    .step hpushed rfl
  have hs : Reachable ⟨p, #[]⟩ { slots := #[.unit] } s := .step hmade rfl
  exact ⟨hnew, hs, (refs_eq_occurrences hnew hs).1⟩

end Machine

end BlockLang

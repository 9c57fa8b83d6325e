import BlockLang.Compilation
import BlockLang.Proofs.Release
import BlockLang.Proofs.Scoping
import BlockLang.Proofs.Simulation
import BlockLang.Proofs.Soundness

/-! Compiled programs do what their trees mean. The counted machine takes the steps of the plain one,
which follow the evaluation of the tree with slots, which goes as that of the tree with names. Since
the tree is well typed, its evaluation never gets stuck; so with every number of rounds either the
machine ends as the evaluation does, or it takes at least that many steps. -/

namespace BlockLang

/-- The height of the stack in front of an instruction; behind the last one the stack is empty. -/
def Context.depthAt (c : Context) (i : Nat) : Nat := (c.code[i]?).elim 0 (·.depth)

/-- A state in the code or at its end whose stack is as high as it should be there. -/
structure MachineState.Ready (s : MachineState) (c : Context) : Prop where
  ip_le : s.ip ≤ c.code.size
  height : s.stack.length = c.depthAt s.ip

namespace Machine

variable {m : Machine} {s start : MachineState} {c : Context}

/-- Steps in a row: a run goes on where it has stopped. -/
theorem loop_add (n k : Nat) :
    m.loop (n + k) s = match m.loop n s with
      | .running t => m.loop k t
      | result => result := by
  induction n generalizing s with
  | zero => rw [Nat.zero_add]; rfl
  | succ n ih =>
      rw [Nat.add_right_comm, loop, loop]
      cases m.step s with
      | running t => exact ih
      | ended e t => rfl
      | faulty f => rfl

theorem loop_succ {n : Nat} {t : MachineState} (h : m.loop n s = .running t) :
    m.loop (n + 1) s = m.step t := by
  rw [loop_add, h]
  show m.loop 1 t = m.step t
  rw [loop]
  cases m.step t <;> rfl

theorem loop_of_ended {n k : Nat} {e : Option RuntimeError} {t : MachineState}
    (h : m.loop n s = .ended e t) (hk : n ≤ k) : m.loop k s = .ended e t := by
  obtain ⟨j, rfl⟩ := Nat.exists_eq_add_of_le hk
  rw [loop_add, h]

theorem loop_of_running {n k : Nat} {t : MachineState} (h : m.loop n s = .running t) (hk : k ≤ n) :
    ∃ u, m.loop k s = .running u := by
  obtain ⟨j, rfl⟩ := Nat.exists_eq_add_of_le hk
  rw [loop_add] at h
  cases hu : m.loop k s with
  | running u => exact ⟨u, rfl⟩
  | ended e u => rw [hu] at h; cases h
  | faulty f => rw [hu] at h; cases h

/-- A run that has ended took its last step from a state that it was in before. -/
theorem loop_ended_inv {n : Nat} {e : Option RuntimeError} {t : MachineState}
    (h : m.loop n s = .ended e t) : ∃ k u, m.loop k s = .running u ∧ m.step u = .ended e t := by
  induction n with
  | zero => cases h
  | succ n ih =>
      cases hn : m.loop n s with
      | running u => exact ⟨n, u, hn, (loop_succ hn).symm.trans h⟩
      | ended e' u =>
          rw [loop_of_ended hn (Nat.le_succ n)] at h
          cases h
          exact ih hn
      | faulty f =>
          rw [loop_add, hn] at h
          cases h

/-- A run ends in only one way. -/
theorem loop_ended_unique {n k : Nat} {e e' : Option RuntimeError} {t t' : MachineState}
    (h : m.loop n s = .ended e t) (h' : m.loop k s = .ended e' t') : e = e' ∧ t = t' := by
  have hmax := loop_of_ended h (Nat.le_max_left n k)
  rw [loop_of_ended h' (Nat.le_max_right n k)] at hmax
  cases hmax
  exact ⟨rfl, rfl⟩

/-- A step of the plain machine is a step of the counting one. -/
theorem step_of_plain (hc : s.Counted []) {t : Plain.State}
    (h : Plain.step m s.plain = some (.running t)) :
    ∃ s', m.step s = .running s' ∧ s'.Counted [] ∧ s'.plain = t := by
  have hstep := step_counted (m := m) hc
  cases hs : m.step s with
  | running s' =>
      rw [hs] at hstep
      rw [hstep.2] at h
      cases h
      exact ⟨s', rfl, hstep.1, rfl⟩
  | ended e s' => rw [hs] at hstep; rw [hstep.2] at h; cases h
  | faulty f => rw [hs] at hstep; rw [hstep.2] at h; cases h

theorem ended_of_plain (hc : s.Counted []) {e : Option RuntimeError} {t : Plain.State}
    (h : Plain.step m s.plain = some (.ended e t)) :
    ∃ s', m.step s = .ended e s' ∧ s'.output = t.output := by
  have hstep := step_counted (m := m) hc
  cases hs : m.step s with
  | ended e' s' =>
      rw [hs] at hstep
      rw [hstep.2] at h
      cases h
      exact ⟨s', rfl, rfl⟩
  | running s' => rw [hs] at hstep; rw [hstep.2] at h; cases h
  | faulty f => rw [hs] at hstep; rw [hstep.2] at h; cases h

theorem ready_of_poised {R : Plain.Run} (h : R.Poised s.plain) : s.Ready R.code := by
  obtain ⟨x, hx, hlen⟩ := h
  have hip : R.code.code[s.ip]? = some x := by rw [← Array.getElem?_toList]; exact hx
  refine ⟨Nat.le_of_lt (Array.getElem?_eq_some_iff.mp hip).1, ?_⟩
  rw [Context.depthAt, hip]
  simpa [MachineState.plain] using hlen

/-- The machine takes the steps of the plain one, and is ready for each of them. -/
theorem loop_of_visits {R : Plain.Run} (hc : start.Counted []) (hstart : R.start = start.plain)
    {n : Nat} {t : Plain.State} (hv : R.Visits n t) :
    ∃ s, R.machine.loop n start = .running s ∧ s.Counted [] ∧ s.plain = t ∧
      ∀ k < n, ∀ u, R.machine.loop k start = .running u → u.Ready R.code := by
  induction hv with
  | start => exact ⟨start, rfl, hc, hstart.symm, fun k hk => absurd hk (Nat.not_lt_zero k)⟩
  | @step n _ _ _ hpoised hstep ih =>
      obtain ⟨s, hloop, hs, rfl, hready⟩ := ih
      obtain ⟨s', hs', hc', hplain⟩ := step_of_plain hs hstep
      refine ⟨s', (loop_succ hloop).trans hs', hc', hplain, fun k hk u hu => ?_⟩
      rcases Nat.lt_succ_iff_lt_or_eq.mp hk with hk | rfl
      · exact hready k hk u hu
      · rw [hloop] at hu
        cases hu
        exact ready_of_poised hpoised

/-- With a number of rounds, either the machine ends as the evaluation does, or it takes at least as
many steps; and it is ready for each of them. -/
def Follows (m : Machine) (start : MachineState) (c : Context) (program : Body .typed)
    (rounds : Nat) : Prop :=
  ∃ n s, m.loop n start = .running s ∧
    (∀ k < n, ∀ u, m.loop k start = .running u → u.Ready c) ∧
    (evaluate rounds program = none ∧ rounds ≤ n ∨
      s.Ready c ∧ ∃ e t, m.step s = .ended e t ∧
        evaluate rounds program = some (e.map (·.cause), t.output))

/-- A fresh machine with the code of a program. -/
structure Carries (m : Machine) (start : MachineState) (c : Context) (program : Body .typed) :
    Prop where
  loaded : Loaded m c
  counted : start.Counted []
  follows : ∀ rounds, m.Follows start c program rounds

/-- Where the evaluation ends, the machine's run does: with its output, and with its error if there is one. -/
theorem follows_of_reaches {R : Plain.Run} {program : Body .typed} {r : Except Stop Datum}
    {vars : Array Datum} {vars' : List (String × Datum)} {output : String}
    (htyped : Body.WellTyped {} false program) (hc : start.Counted [])
    (hstart : R.start = start.plain)
    (heval : Eval.stmts .named R.rounds program { vars := [], output := "" } =
      (r, { vars := vars', output }))
    {exits : Plain.Run.Exits}
    (h : R.Reaches exits (fun _ => R.At 0 R.code.code.size []) (r, { vars, output })) :
    R.machine.Follows start R.code program R.rounds := by
  have hsound := htyped.evaluates R.rounds
  rw [heval] at hsound
  cases r with
  | ok d =>
      obtain ⟨n, t, hv, hat⟩ := h
      obtain ⟨s, hloop, hs, rfl, hready⟩ := loop_of_visits hc hstart hv
      have hip : s.ip = R.code.code.size := hat.ip_eq
      have hstack : s.stack = [] := List.map_eq_nil_iff.mp hat.stack_eq
      have hend : R.machine.program.instrs[s.ip]? = none :=
        Array.getElem?_eq_none (Nat.le_of_eq (R.loaded.size_eq.trans hip.symm))
      refine ⟨n, s, hloop, hready, .inr ⟨⟨Nat.le_of_eq hip, ?_⟩, none, s, ?_, ?_⟩⟩
      · rw [hstack, hip, Context.depthAt, Array.getElem?_size]
        rfl
      · rw [step, hend]
      · rw [evaluate, heval]
        exact congrArg (fun o => some (none, o)) hat.output_eq.symm
  | error why =>
      cases why with
      | failed cause =>
          obtain ⟨n, t, e, t', hv, hpoised, hstep, rfl, hout⟩ := h
          obtain ⟨s, hloop, hs, rfl, hready⟩ := loop_of_visits hc hstart hv
          obtain ⟨s', hs', hout'⟩ := ended_of_plain hs hstep
          refine ⟨n, s, hloop, hready, .inr ⟨ready_of_poised hpoised, some e, s', hs', ?_⟩⟩
          rw [evaluate, heval, hout', hout]
          rfl
      | outOfRounds =>
          obtain ⟨n, t, hv, hn⟩ := h
          obtain ⟨s, hloop, -, -, hready⟩ := loop_of_visits hc hstart hv
          exact ⟨n, s, hloop, hready, .inl ⟨by rw [evaluate, heval], hn⟩⟩
      | stuck => exact hsound.elim
      | leave => exact hsound.elim
      | again => exact hsound.elim

namespace Carries

variable {program : Body .typed}

/-- Whatever the evaluation ends with, the machine ends with. -/
theorem ends (h : m.Carries start c program) {rounds : Nat} {outcome : Option RuntimeCause}
    {output : String} (he : evaluate rounds program = some (outcome, output)) :
    ∃ n e t, m.loop n start = .ended e t ∧ e.map (·.cause) = outcome ∧ t.output = output := by
  obtain ⟨n, s, hloop, -, ⟨hnone, -⟩ | ⟨-, e, t, hstep, hsome⟩⟩ := h.follows rounds
  · rw [hnone] at he
    cases he
  · rw [hsome] at he
    cases he
    exact ⟨n + 1, e, t, (loop_succ hloop).trans hstep, rfl, rfl⟩

/-- Whatever the machine ends with, the evaluation ends with: one round more than the machine takes
steps suffices. -/
theorem evaluates (h : m.Carries start c program) {n : Nat} {e : Option RuntimeError}
    {t : MachineState} (hended : m.loop n start = .ended e t) :
    evaluate (n + 1) program = some (e.map (·.cause), t.output) := by
  obtain ⟨k, s, hloop, -, ⟨-, hk⟩ | ⟨-, e', t', hstep, hsome⟩⟩ := h.follows (n + 1)
  · rw [loop_of_ended hended (Nat.le_of_succ_le hk)] at hloop
    cases hloop
  · obtain ⟨rfl, rfl⟩ := loop_ended_unique hended ((loop_succ hloop).trans hstep)
    exact hsome

/-- A run never meets a fault, and is ready for all that it does. The evaluation is given more rounds than the run
has steps, so the run is followed as far as it goes. -/
theorem progress (h : m.Carries start c program) (n : Nat) :
    (∃ s, m.loop n start = .running s ∧ s.Ready c) ∨ ∃ e t, m.loop n start = .ended e t := by
  obtain ⟨k, s, hloop, hready, hlast⟩ := h.follows (n + 1)
  by_cases hn : n < k
  · obtain ⟨u, hu⟩ := loop_of_running hloop (Nat.le_of_lt hn)
    exact .inl ⟨u, hu, hready n hn u hu⟩
  · obtain ⟨-, hk⟩ | ⟨hs, e, t, hstep, -⟩ := hlast
    · exact absurd hk hn
    · by_cases heq : n = k
      · exact .inl ⟨s, heq ▸ hloop, hs⟩
      · exact .inr ⟨e, t, loop_of_ended ((loop_succ hloop).trans hstep) (by omega)⟩

theorem ready (h : m.Carries start c program) {n : Nat} (hn : m.loop n start = .running s) :
    s.Ready c := by
  obtain ⟨u, hu, hready⟩ | ⟨e, u, hu⟩ := h.progress n
  · rw [hn] at hu
    cases hu
    exact hready
  · rw [hn] at hu
    cases hu

/-- A program has an outcome just when its run halts with it, for some number of rounds and of steps. -/
theorem halts_iff (h : m.Carries start c program) (trace leakCheck : Bool)
    (outcome : Option RuntimeCause) (output : String) :
    (∃ rounds, evaluate rounds program = some (outcome, output)) ↔
      ∃ limit e t, (m.run trace leakCheck limit start).ending = .halted e t ∧
        e.map (·.cause) = outcome ∧ t.output = output := by
  constructor
  · rintro ⟨rounds, he⟩
    obtain ⟨n, e, s, hloop, hcause, hout⟩ := h.ends he
    have hrun := run_ending (m := m) h.counted trace leakCheck n
    rw [hloop] at hrun
    obtain ⟨t, hending, -, -, -, ht⟩ := hrun
    exact ⟨n, e, t, hending, hcause, ht.trans hout⟩
  · rintro ⟨limit, e, t, hending, rfl, rfl⟩
    have hrun := run_ending (m := m) h.counted trace leakCheck limit
    cases hloop : m.loop limit start with
    | running s => rw [hloop] at hrun; rw [hrun] at hending; cases hending
    | faulty f => rw [hloop] at hrun; rw [hrun.1] at hending; cases hending
    | ended e' s =>
        rw [hloop] at hrun
        obtain ⟨t', hending', -, -, -, hout⟩ := hrun
        rw [hending'] at hending
        cases hending
        exact ⟨limit + 1, hout ▸ h.evaluates hloop⟩

/-- A program has no outcome just when its run is unfinished after any number of steps. -/
theorem diverges_iff (h : m.Carries start c program) (trace leakCheck : Bool) :
    (∀ rounds, evaluate rounds program = none) ↔
      ∀ limit, ∃ t, (m.run trace leakCheck limit start).ending = .unfinished t := by
  constructor
  · intro hnone limit
    have hrun := run_ending (m := m) h.counted trace leakCheck limit
    obtain ⟨s, hloop, -⟩ | ⟨e, t, hloop⟩ := h.progress limit
    · rw [hloop] at hrun
      exact ⟨s, hrun⟩
    · have hsome := h.evaluates hloop
      rw [hnone] at hsome
      cases hsome
  · intro hrun rounds
    cases he : evaluate rounds program with
    | none => rfl
    | some r =>
        obtain ⟨limit, e, t, hhalted, -⟩ :=
          (h.halts_iff trace leakCheck r.1 r.2).mp ⟨rounds, he⟩
        obtain ⟨t', hending⟩ := hrun limit
        rw [hending] at hhalted
        cases hhalted

end Carries

end Machine

variable {program : Body .typed} {body : Body .resolved} {slots : Nat} {c : Context} {p : Program}

/-- A compiled program can be loaded, and the machine carries it. -/
theorem Body.WellTyped.carries (htyped : Body.WellTyped {} false program)
    (hres : resolve program = .ok (body, slots)) (hemit : Emit.program body {} = .ok ((), c))
    (hfin : Finished c slots) (hp : p.Holds c slots) :
    ∃ m start, Machine.new p = .ok (m, start) ∧ m.program = p ∧ m.Carries start c program := by
  obtain ⟨m, hnew, hprogram, hloaded⟩ := hp.new hfin
  have hcounted := Machine.new_counted hnew
  refine ⟨m, _, hnew, hprogram, hloaded, hcounted, fun rounds => ?_⟩
  let start : MachineState := { slots := Array.replicate slots .unit }
  let R : Plain.Run := ⟨m, c, hloaded, start.plain, rounds⟩
  obtain ⟨r, vars, vars', output, hslotted, hnamed⟩ := resolve_alike hres rounds
  have hat : R.At 0 0 [] 0 { vars := Array.replicate slots .unit, output := "" } start.plain :=
    { enough := Nat.le_refl 0
      ip_eq := rfl
      stack_eq := rfl
      output_eq := rfl
      slots_eq := by simp [start, MachineState.plain, Value.plain, Plain.Value.datum?]
      small := by
        rw [Array.size_replicate]
        exact hfin.slots_le }
  have hsim : R.Simulates ⟨fun _ _ _ => False, fun _ _ _ => False⟩ _ _ _ :=
    Plain.Run.program_simulates body hemit ⟨List.prefix_rfl, List.prefix_rfl⟩ rfl
  have hreach := hsim 0 _ _ .start hat
  rw [hslotted] at hreach
  exact Machine.follows_of_reaches (R := R) htyped hcounted rfl hnamed hreach

/-- A well-typed program has code, unless that does not fit into memory. -/
theorem Body.WellTyped.generates (htyped : Body.WellTyped {} false program) :
    ∃ body slots c, resolve program = .ok (body, slots) ∧ Emit.program body {} = .ok ((), c) ∧
      (tableLimit < c.code.size ∧ generate body slots = .error (.tooLong c.code.size) ∨
        Finished c slots ∧ ∃ p, generate body slots = .ok p ∧ p.Holds c slots) := by
  obtain ⟨body, slots, hres, hin⟩ := htyped.resolves
  obtain ⟨c, hemit, -, hcases⟩ := generate_cases hin
  rw [← resolve_slots hres] at hcases
  exact ⟨body, slots, c, hres, hemit, hcases⟩

/-- The compiled form of a program that the checker accepts does what its tree means. It ends with an
error and an output if and only if the evaluation of the tree does, and goes on for ever if and only
if that does. Only code that no table can hold has no compiled form. -/
theorem run_halts_iff_evaluates {source : Body .parsed} {checker : Checker}
    (h : ({} : Checker).check source = (.ok program, checker)) :
    ∃ body slots c, resolve program = .ok (body, slots) ∧
      (Emit.program body).run {} = .ok ((), c) ∧
      (tableLimit < c.code.size ∧ generate body slots = .error (.tooLong c.code.size) ∨
        ∃ p m start, generate body slots = .ok p ∧ Machine.new p = .ok (m, start) ∧
          ∀ trace leakCheck,
            (∀ outcome output,
              (∃ rounds, evaluate rounds program = some (outcome, output)) ↔
                ∃ limit e t, (m.run trace leakCheck limit start).ending = .halted e t ∧
                  e.map (·.cause) = outcome ∧ t.output = output) ∧
            ((∀ rounds, evaluate rounds program = none) ↔
              ∀ limit, ∃ t, (m.run trace leakCheck limit start).ending = .unfinished t)) := by
  have htyped := Checker.check_wellTyped h
  obtain ⟨body, slots, c, hres, hemit, hcases⟩ := htyped.generates
  refine ⟨body, slots, c, hres, hemit, ?_⟩
  obtain ⟨hlong, hgen⟩ | ⟨hfin, p, hgen, hp⟩ := hcases
  · exact .inl ⟨hlong, hgen⟩
  · obtain ⟨m, start, hnew, -, hcarries⟩ := htyped.carries hres hemit hfin hp
    exact .inr ⟨p, m, start, hgen, hnew, fun trace leakCheck =>
      ⟨hcarries.halts_iff trace leakCheck, hcarries.diverges_iff trace leakCheck⟩⟩

/-- A loop that counts down, and divides by zero in its second round. -/
theorem run_halts_countdown :
    let source : Body .parsed := [
      .declare .int "n" (.int 2 ()) {},
      .expr (.loop (.bool true ()) [
        .write true (.var "n" ()) () {},
        .expr (.assign "n" (.binary .sub (.var "n" ()) (.int 1 ()) ()) ()) {},
        .write true (.binary .div (.int 6 ()) (.var "n" ()) ()) () {}] ()) {}]
    let program : Body .typed := [
      .declare .int "n" (.int 2 .int) .unit,
      .expr (.loop (.bool true .bool) [
        .write true (.var "n" .int) .int .unit,
        .expr (.assign "n" (.binary .sub (.var "n" .int) (.int 1 .int) .int) .int) .int,
        .write true (.binary .div (.int 6 .int) (.var "n" .int) .int) .int .unit] .unit) .unit]
    (∃ checker, ({} : Checker).check source = (.ok program, checker)) ∧
      evaluate 2 program = some (some .divisionByZero, "2\n6\n1\n") ∧
      ∃ body slots p m start limit e t, resolve program = .ok (body, slots) ∧
        generate body slots = .ok p ∧ Machine.new p = .ok (m, start) ∧
        (m.run false true limit start).ending = .halted e t ∧
        e.map (·.cause) = some .divisionByZero ∧ t.output = "2\n6\n1\n" := by
  intro source program
  obtain ⟨checker, hcheck⟩ : ∃ checker, ({} : Checker).check source = (.ok program, checker) :=
    ⟨_, rfl⟩
  have hevaluate : evaluate 2 program = some (some .divisionByZero, "2\n6\n1\n") := rfl
  refine ⟨⟨checker, hcheck⟩, hevaluate, ?_⟩
  obtain ⟨body, slots, c, hres, -, ⟨-, hgen⟩ | ⟨p, m, start, hgen, hnew, hruns⟩⟩ :=
    run_halts_iff_evaluates hcheck
  · cases hres
    cases hgen
  · obtain ⟨limit, e, t, hrun⟩ := ((hruns false true).1 _ _).mp ⟨2, hevaluate⟩
    exact ⟨body, slots, p, m, start, limit, e, t, hres, hgen, hnew, hrun⟩

end BlockLang

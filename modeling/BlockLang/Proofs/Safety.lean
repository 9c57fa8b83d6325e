import BlockLang.Proofs.Correctness
import BlockLang.Proofs.Effects

/-! Compiled programs never meet a fault. A source that compiles has a well-typed tree, and the machine
that runs its code follows the evaluation of the tree; so every step can be taken, and a run only ends
behind the last instruction or with a division by zero. -/

namespace BlockLang

variable {settings : Settings} {name : String} {source : List Char} {p : Program}

theorem mapError_eq_ok {ε ε' α : Type} {f : ε → ε'} {x : Except ε α} {a : α}
    (h : x.mapError f = .ok a) : x = .ok a := by
  cases x with
  | ok b => cases h; rfl
  | error e => cases h

theorem ok_of_isOk {ε α : Type} {x : Except ε α} (h : x.isOk = true) : ∃ a, x = .ok a := by
  cases x with
  | ok a => exact ⟨a, rfl⟩
  | error e => cases h

theorem Program.Holds.withHash {q : Program} {c : Context} {slots : Nat} (h : q.Holds c slots)
    (hash : UInt64) : Program.Holds { q with sourceHash := hash } c slots :=
  ⟨h.instrs, h.constants, h.labels, h.slots⟩

namespace Compilation

theorem typed_ok {program : Body .typed} (h : (typed settings name source).result = .ok program) :
    ∃ parsed checker, ({} : Checker).check parsed = (.ok program, checker) := by
  simp only [typed] at h
  split at h
  · cases h
  case h_2 parsed _ =>
    have hresult := mapError_eq_ok h
    exact ⟨parsed, (({} : Checker).check parsed).2, Prod.ext hresult rfl⟩

theorem resolved_ok {body : Body .resolved} {slots : Nat}
    (h : (resolved settings name source).result = .ok (body, slots)) :
    ∃ program, (typed settings name source).result = .ok program ∧
      resolve program = .ok (body, slots) := by
  simp only [resolved] at h
  split at h
  · cases h
  case h_2 program hp => exact ⟨program, hp, mapError_eq_ok h⟩

theorem compiled_ok (h : (compiled settings name source).result = .ok p) :
    ∃ body slots q, (resolved settings name source).result = .ok (body, slots) ∧
      generate body slots = .ok q ∧ p = { q with sourceHash := Digest.ofSource source } := by
  simp only [compiled] at h
  split at h
  · cases h
  case h_2 body slots hr =>
    split at h
    · cases h
    case h_2 q hq =>
      cases h
      exact ⟨body, slots, q, hr, hq, rfl⟩

/-- What a compilation that succeeds has gone through, and a machine that runs its result. -/
theorem compiled_carries (h : (compiled settings name source).result = .ok p) :
    ∃ program body slots c m start, (resolved settings name source).result = .ok (body, slots) ∧
      Emit.program body {} = .ok ((), c) ∧ Finished c slots ∧ p.Holds c slots ∧
      Machine.new p = .ok (m, start) ∧ m.program = p ∧ m.Carries start c program := by
  obtain ⟨body, slots, q, hresolved, hgen, rfl⟩ := compiled_ok h
  obtain ⟨program, htyped, hres⟩ := resolved_ok hresolved
  obtain ⟨parsed, checker, hcheck⟩ := typed_ok htyped
  have hwt := Checker.check_wellTyped hcheck
  obtain ⟨body', slots', c, hres', hemit, hcases⟩ := hwt.generates
  rw [hres] at hres'
  cases hres'
  obtain ⟨-, hlong⟩ | ⟨hfin, q', hgen', hq⟩ := hcases
  · rw [hlong] at hgen
    cases hgen
  · rw [hgen'] at hgen
    cases hgen
    have hp := hq.withHash (Digest.ofSource source)
    obtain ⟨m, start, hnew, hprogram, hcarries⟩ := hwt.carries hres hemit hfin hp
    exact ⟨program, body, slots, c, m, start, hresolved, hemit, hfin, hp, hnew, hprogram, hcarries⟩

end Compilation

namespace Machine

variable {m : Machine} {start s : MachineState} {c : Context} {program : Body .typed}

/-- What a machine does next: it takes a step, or is at the end of its code, or divides by zero. -/
inductive Continues (m : Machine) (s : MachineState) : Prop where
  | running {t : MachineState} : m.step s = .running t → Continues m s
  | halted : s.ip = m.program.instrs.size → m.step s = .ended none s → Continues m s
  | failed {i : Instr} {op : Op} {cause : RuntimeCause} {a : Int64} {rest : List Value} :
      m.program.instrs[s.ip]? = some i → i.op? = some op →
      op = .div ∧ cause = .divisionByZero ∨ op = .rem ∧ cause = .remainderByZero →
      s.stack = .int 0 :: .int a :: rest →
      m.step s = .ended (some ⟨s.ip, cause⟩) { s with stack := rest } → Continues m s

theorem Carries.continues (h : m.Carries start c program) {n : Nat}
    (hn : m.loop n start = .running s) : m.Continues s := by
  have hnext := h.progress (n + 1)
  rw [loop_succ hn] at hnext
  obtain ⟨t, hstep, -⟩ | ⟨e, t, hstep⟩ := hnext
  · exact .running hstep
  obtain ⟨rfl, rfl, hsize⟩ | ⟨i, op, cause, a, rest, hi, hop, hcause, hstack, rfl, rfl⟩ :=
    step_eq_ended hstep
  · exact .halted (Nat.le_antisymm (h.loaded.size_eq ▸ (h.ready hn).ip_le) hsize) hstep
  · exact .failed hi hop hcause hstack hstep

theorem Carries.not_faulty (h : m.Carries start c program) (trace leakCheck : Bool) (limit : Nat)
    (f : Fault) : (m.run trace leakCheck limit start).ending ≠ .faulty f := by
  have hrun := run_ending (m := m) h.counted trace leakCheck limit
  obtain ⟨s, hs, -⟩ | ⟨e, s, hs⟩ := h.progress limit
  · rw [hs] at hrun
    rw [hrun]
    exact Ending.noConfusion
  · rw [hs] at hrun
    obtain ⟨t, hending, -⟩ := hrun
    rw [hending]
    exact Ending.noConfusion

end Machine

/-- The compiled form of a source can be loaded, and no run of it meets a fault, whether or not leaks
are looked for. From every state that it reaches it goes on, or it is at the end of its code, or it
stops at a division or a remainder whose right operand is zero. -/
theorem compiled_continues (h : (Compilation.compiled settings name source).result = .ok p) :
    ∃ m start, Machine.new p = .ok (m, start) ∧ m.program = p ∧
      (∀ n s, m.loop n start = .running s → m.Continues s) ∧
      (∀ n f, m.loop n start ≠ .faulty f) ∧
      ∀ trace leakCheck limit f, (m.run trace leakCheck limit start).ending ≠ .faulty f := by
  obtain ⟨program, body, slots, c, m, start, -, -, -, -, hnew, hprogram, hcarries⟩ :=
    Compilation.compiled_carries h
  refine ⟨m, start, hnew, hprogram, fun n s hs => hcarries.continues hs, fun n f hf => ?_,
    hcarries.not_faulty⟩
  have hrun := Machine.run_ending (m := m) hcarries.counted false false n
  rw [hf] at hrun
  exact hcarries.not_faulty false false n f hrun.1

/-- A loop whose second remainder is one by zero. -/
theorem compiled_continues_countdown :
    let source := "int n = 1; while true \x7b writeln 7 % n; n = n - 1 \x7d".toList
    ∃ p m start, (Compilation.compiled {} "countdown" source).result = .ok p ∧
      Machine.new p = .ok (m, start) ∧
      (∀ n s, m.loop n start = .running s → m.Continues s) ∧
      ∀ limit f, (m.run true true limit start).ending ≠ .faulty f := by
  intro source
  have hok : (Compilation.compiled {} "countdown" source).result.isOk = true := by decide +kernel
  obtain ⟨p, hp⟩ := ok_of_isOk hok
  obtain ⟨m, start, hnew, -, hcontinues, -, hruns⟩ := compiled_continues hp
  exact ⟨p, m, start, hp, hnew, hcontinues, hruns true true⟩

end BlockLang

import BlockLang.Proofs.Counting

/-! What an instruction does to the stack. It takes as many values as its operation pops, puts as many
as that pushes, and does not touch the values below; it goes on behind itself or behind the label that
it names. A run-time error is a division or a remainder whose right operand is zero. -/

namespace BlockLang

/-- A stack on which the uppermost values have been replaced. -/
def Shift (pops pushes : Nat) (stack stack' : List Value) : Prop :=
  ∃ taken put rest, stack = taken ++ rest ∧ stack' = put ++ rest ∧ taken.length = pops ∧
    put.length = pushes

namespace Shift

variable {pops pushes : Nat} {stack stack' : List Value}

theorem eq_self (h : Shift 0 0 stack stack') : stack' = stack := by
  obtain ⟨taken, put, rest, rfl, rfl, htaken, hput⟩ := h
  rw [List.length_eq_zero_iff.mp htaken, List.length_eq_zero_iff.mp hput]

/-- What is put on top of what was left. -/
theorem trans {taken : Nat} {mid : List Value} (h : Shift taken 0 stack mid)
    (h' : Shift pops pushes mid stack') : Shift (pops + taken) pushes stack stack' := by
  obtain ⟨xs, put, rest, rfl, rfl, hxs, hput⟩ := h
  obtain ⟨ys, put', rest', hrest, rfl, hys, hput'⟩ := h'
  rw [List.length_eq_zero_iff.mp hput, List.nil_append] at hrest
  refine ⟨xs ++ ys, put', rest', ?_, rfl, ?_, hput'⟩
  · rw [hrest, List.append_assoc]
  · rw [List.length_append, hxs, hys, Nat.add_comm]

end Shift

namespace Exec

/-- A piece of an instruction that replaces the uppermost values of the stack, stays in its place and
yields what it should. -/
def Shifts {α : Type} (pops pushes : Nat) (yields : α → Prop) (x : Exec α) : Prop :=
  ∀ s a t, x s = .ok (a, t) → yields a ∧ t.ip = s.ip ∧ Shift pops pushes s.stack t.stack

variable {α β : Type} {pops pushes : Nat} {yields : α → Prop} {x : Exec α} {m : Machine}
  {s t : MachineState}

theorem bind_eq_ok {f : α → Exec β} {b : β} :
    (x >>= f) s = .ok (b, t) ↔ ∃ a u, x s = .ok (a, u) ∧ f a u = .ok (b, t) := by
  rw [bind_apply]
  constructor
  · intro h
    split at h
    case h_1 a u hx => exact ⟨a, u, hx, h⟩
    case h_2 => cases h
  · rintro ⟨a, u, hx, hf⟩
    rw [hx]
    exact hf

theorem Shifts.keep {f : α → Exec β} {yields : β → Prop} (hx : Shifts 0 0 (fun _ => True) x)
    (hf : ∀ a, Shifts pops pushes yields (f a)) : Shifts pops pushes yields (x >>= f) := by
  intro s b t h
  obtain ⟨a, u, hxs, hfu⟩ := bind_eq_ok.mp h
  obtain ⟨-, hip, hsame⟩ := hx s a u hxs
  obtain ⟨hb, hip', hshift⟩ := hf a u b t hfu
  rw [hsame.eq_self] at hshift
  exact ⟨hb, hip'.trans hip, hshift⟩

theorem Shifts.take {taken : Nat} {f : α → Exec β} {yields : β → Prop}
    (hx : Shifts taken 0 (fun _ => True) x) (hf : ∀ a, Shifts pops pushes yields (f a)) :
    Shifts (pops + taken) pushes yields (x >>= f) := by
  intro s b t h
  obtain ⟨a, u, hxs, hfu⟩ := bind_eq_ok.mp h
  obtain ⟨-, hip, htaken⟩ := hx s a u hxs
  obtain ⟨hb, hip', hshift⟩ := hf a u b t hfu
  exact ⟨hb, hip'.trans hip, htaken.trans hshift⟩

theorem Shifts.put {f : α → Exec β} {yields : β → Prop}
    (hx : Shifts pops pushes (fun _ => True) x) (hf : ∀ a, Shifts 0 0 yields (f a)) :
    Shifts pops pushes yields (x >>= f) := by
  intro s b t h
  obtain ⟨a, u, hxs, hfu⟩ := bind_eq_ok.mp h
  obtain ⟨-, hip, hshift⟩ := hx s a u hxs
  obtain ⟨hb, hip', hsame⟩ := hf a u b t hfu
  rw [hsame.eq_self]
  exact ⟨hb, hip'.trans hip, hshift⟩

theorem Shifts.pure {a : α} (ha : yields a) : Shifts 0 0 yields (pure a) := by
  rintro s _ _ ⟨⟩
  exact ⟨ha, rfl, [], [], _, rfl, rfl, rfl, rfl⟩

theorem Shifts.fault {f : Fault} : Shifts pops pushes yields (fault f) := by
  rintro s _ _ ⟨⟩

/-- A piece that does not touch the stack. -/
theorem Shifts.of_same (h : ∀ s a t, x s = .ok (a, t) → t.ip = s.ip ∧ t.stack = s.stack) :
    Shifts 0 0 (fun _ => True) x := by
  intro s a t hx
  obtain ⟨hip, hstack⟩ := h s a t hx
  exact ⟨trivial, hip, [], [], s.stack, rfl, hstack, rfl, rfl⟩

theorem push_shifts (v : Value) : Shifts 0 1 (fun _ => True) (push v) := by
  rintro s _ _ ⟨⟩
  exact ⟨trivial, rfl, [], [v], s.stack, rfl, rfl, rfl, rfl⟩

theorem pushNew_shifts (text : String) : Shifts 0 1 (fun _ => True) (pushNew text) := by
  rintro s _ _ ⟨⟩
  exact ⟨trivial, rfl, [], [_], s.stack, rfl, rfl, rfl, rfl⟩

theorem pop_shifts : Shifts 1 0 (fun _ => True) pop := by
  intro s v t h
  rw [pop] at h
  split at h
  · cases h
  case h_2 w rest hs =>
    cases h
    exact ⟨trivial, rfl, [v], [], rest, hs, rfl, rfl, rfl⟩

theorem top_shifts : Shifts 1 1 (fun _ => True) top := by
  intro s v t h
  rw [top] at h
  split at h
  · cases h
  case h_2 w rest hs =>
    cases h
    exact ⟨trivial, rfl, [v], [v], rest, hs, hs, rfl, rfl⟩

theorem popInt_shifts : Shifts 1 0 (fun _ => True) popInt := by
  refine .put pop_shifts fun v => ?_
  cases v with
  | int n => exact .pure trivial
  | _ => exact .keep (.of_same fun _ _ _ h => by cases h; exact ⟨rfl, rfl⟩) fun _ => .fault

theorem popBool_shifts : Shifts 1 0 (fun _ => True) popBool := by
  refine .put pop_shifts fun v => ?_
  cases v with
  | bool b => exact .pure trivial
  | _ => exact .keep (.of_same fun _ _ _ h => by cases h; exact ⟨rfl, rfl⟩) fun _ => .fault

theorem retain_shifts (v : Value) : Shifts 0 0 (fun _ => True) (retain v) := by
  cases v with
  | heap id =>
      refine .of_same fun s _ t h => ?_
      simp only [retain] at h
      split at h <;> cases h
      exact ⟨rfl, rfl⟩
  | _ => exact .pure trivial

theorem release_shifts (v : Value) : Shifts 0 0 (fun _ => True) (release v) := by
  cases v with
  | heap id =>
      refine .of_same fun s _ t h => ?_
      simp only [release] at h
      split at h <;> cases h
      exact ⟨rfl, rfl⟩
  | _ => exact .pure trivial

theorem textOf_shifts (p : Program) (v : Value) : Shifts 0 0 (fun _ => True) (textOf p v) := by
  refine .of_same fun s _ t h => ?_
  cases v with
  | const index | heap id =>
      simp only [textOf] at h
      split at h <;> cases h
      exact ⟨rfl, rfl⟩
  | _ => cases h

theorem shown_shifts (p : Program) (v : Value) : Shifts 0 0 (fun _ => True) (shown p v) := by
  rw [shown]
  split
  · exact textOf_shifts p v
  · exact .pure trivial

theorem slot_shifts (arg : Int64) : Shifts 0 0 (fun _ => True) (slot arg) := by
  refine .of_same fun s _ t h => ?_
  rw [slot_apply] at h
  split at h
  · cases h
  · split at h <;> cases h
    exact ⟨rfl, rfl⟩

theorem setSlot_shifts (k : Nat) (v : Value) : Shifts 0 0 (fun _ => True) (setSlot k v) :=
  .of_same fun _ _ _ h => by cases h; exact ⟨rfl, rfl⟩

theorem print_shifts (text : String) : Shifts 0 0 (fun _ => True) (print text) :=
  .of_same fun _ _ _ h => by cases h; exact ⟨rfl, rfl⟩

theorem arith_shifts (f : Int64 → Int64 → Int64) : Shifts 2 1 (fun _ => True) (arith f) :=
  .take popInt_shifts fun _ => .take popInt_shifts fun _ => push_shifts _

theorem compare_shifts (f : Int64 → Int64 → Bool) : Shifts 2 1 (fun _ => True) (compare f) :=
  .take popInt_shifts fun _ => .take popInt_shifts fun _ => push_shifts _

theorem logic_shifts (f : Bool → Bool → Bool) : Shifts 2 1 (fun _ => True) (logic f) :=
  .take popBool_shifts fun _ => .take popBool_shifts fun _ => push_shifts _

theorem equality_shifts (wanted : Bool) : Shifts 2 1 (fun _ => True) (equality wanted) := by
  refine .take pop_shifts fun b => .take pop_shifts fun a => ?_
  cases equal? a b with
  | some same => exact push_shifts _
  | none => exact .keep (.of_same fun _ _ _ h => by cases h; exact ⟨rfl, rfl⟩) fun _ => .fault

theorem stringify_shifts : Shifts 1 1 (fun _ => True) stringify := by
  refine .take pop_shifts fun v => ?_
  cases v with
  | const index | heap id => exact push_shifts _
  | _ => exact pushNew_shifts _

theorem popTexts_shifts (p : Program) : Shifts 2 0 (fun _ => True) (popTexts p) :=
  .take pop_shifts fun b => .take pop_shifts fun a =>
    .keep (textOf_shifts p a) fun _ => .keep (textOf_shifts p b) fun _ =>
      .keep (release_shifts a) fun _ => .keep (release_shifts b) fun _ => .pure trivial

theorem write_shifts (p : Program) (behind : String) :
    Shifts 1 0 (fun _ => True) (write p behind) :=
  .take pop_shifts fun v => .keep (shown_shifts p v) fun _ =>
    .keep (print_shifts _) fun _ => release_shifts v

/-- What an operation can do: go on behind itself, go on behind a label, or fail. -/
inductive Does (m : Machine) (op : Op) (arg : Int64) (s : MachineState) :
    Option RuntimeError → MachineState → Prop where
  | goes {t : MachineState} : op ≠ .jump → t.ip = s.ip →
      Shift op.pops op.pushes s.stack t.stack → Does m op arg s none t
  | jumps {t : MachineState} : op.isJump = true → Plain.target? m arg = some t.ip →
      Shift op.pops op.pushes s.stack t.stack → Does m op arg s none t
  | fails {a : Int64} {rest : List Value} {cause : RuntimeCause} :
      op = .div ∧ cause = .divisionByZero ∨ op = .rem ∧ cause = .remainderByZero →
      s.stack = .int 0 :: .int a :: rest →
      Does m op arg s (some ⟨s.ip, cause⟩) { s with stack := rest }

theorem Shifts.does {op : Op} {arg : Int64} {e : Option RuntimeError} {x : Exec (Option RuntimeError)}
    (hx : Shifts op.pops op.pushes (· = none) x) (hop : op ≠ .jump) (h : x s = .ok (e, t)) :
    Does m op arg s e t := by
  obtain ⟨rfl, hip, hshift⟩ := hx s e t h
  exact .goes hop hip hshift

/-- An integer is popped if it is on top of the stack, and nothing else is changed. -/
theorem popInt_eq_ok {n : Int64} (h : popInt s = .ok (n, t)) :
    s.stack = .int n :: t.stack ∧ t = { s with stack := t.stack } := by
  obtain ⟨v, u, hpop, hk⟩ := bind_eq_ok.mp h
  rw [pop] at hpop
  split at hpop
  · cases hpop
  case h_2 v' rest hs =>
    cases hpop
    cases v with
    | int k =>
        cases hk
        exact ⟨hs, rfl⟩
    | _ => cases hk

/-- A division takes two integers and leaves one, or ends the run at zero. -/
theorem divide_does {f : Int64 → Int64 → Int64} {cause : RuntimeCause} {op : Op} {arg : Int64}
    {e : Option RuntimeError}
    (hop : op = .div ∧ cause = .divisionByZero ∨ op = .rem ∧ cause = .remainderByZero)
    (h : divide f cause s = .ok (e, t)) : Does m op arg s e t := by
  obtain ⟨b, u, hb, h⟩ := bind_eq_ok.mp h
  obtain ⟨a, v, ha, h⟩ := bind_eq_ok.mp h
  obtain ⟨hs, hu⟩ := popInt_eq_ok hb
  obtain ⟨hstack, hv⟩ := popInt_eq_ok ha
  rw [hstack] at hs
  have hip : v.ip = s.ip := by rw [hv, hu]
  by_cases hzero : b = 0
  · rw [if_pos hzero, bind_apply, get_apply] at h
    obtain ⟨rfl, rfl⟩ : some ⟨v.ip, cause⟩ = e ∧ v = t := by cases h; exact ⟨rfl, rfl⟩
    have hv : v = { s with stack := v.stack } := by rw [hv, hu]
    rw [hip, hv]
    exact .fails hop (hzero ▸ hs)
  · rw [if_neg hzero] at h
    cases h
    have hshift : Shift 2 1 s.stack (.int (f a b) :: v.stack) :=
      ⟨[.int b, .int a], [.int (f a b)], v.stack, hs, rfl, rfl, rfl⟩
    rcases hop with ⟨rfl, -⟩ | ⟨rfl, -⟩ <;> exact .goes (by decide) hip hshift

/-- A jump goes to the place of its label and leaves the stack alone. -/
theorem jump_eq_ok {arg : Int64} {u : Unit} (h : jump m arg s = .ok (u, t)) :
    Plain.target? m arg = some t.ip ∧ t.stack = s.stack := by
  have happly := jump_apply m arg s
  cases htarget : Plain.target? m arg with
  | some target =>
      rw [htarget] at happly
      rw [happly] at h
      cases h
      exact ⟨rfl, rfl⟩
  | none =>
      rw [htarget] at happly
      obtain ⟨f, hf, -⟩ := happly
      rw [hf] at h
      cases h

/-- A conditional jump takes a truth value, whether it jumps or not. -/
theorem jumpFalse_does {arg : Int64} {e : Option RuntimeError}
    (h : (do if ← popBool then return none else do jump m arg; return none :
      Exec (Option RuntimeError)) s = .ok (e, t)) : Does m .jumpFalse arg s e t := by
  obtain ⟨b, u, hb, h⟩ := bind_eq_ok.mp h
  obtain ⟨-, hip, hshift⟩ := popBool_shifts s b u hb
  cases b with
  | true =>
      cases h
      exact .goes (by decide) hip hshift
  | false =>
      obtain ⟨_, v, hj, h⟩ := bind_eq_ok.mp h
      obtain ⟨htarget, hstack⟩ := jump_eq_ok hj
      cases h
      exact .jumps rfl htarget (hstack ▸ hshift)

/-- Every instruction has the effect of its operation; one case for each of them. -/
theorem op_does {i : Instr} {op : Op} {e : Option RuntimeError} (hop : i.op? = some op)
    (h : instr m i s = .ok (e, t)) : Does m op i.arg s e t := by
  rw [instr, hop] at h
  have done : Shifts 0 0 (· = none) (pure none : Exec (Option RuntimeError)) := .pure rfl
  cases op with
  | pushInt | pushBool | pushUnit | pushString =>
      exact Shifts.does (.put (push_shifts _) fun _ => done) (by decide) h
  | pop =>
      exact Shifts.does (.take pop_shifts fun v => .keep (release_shifts v) fun _ => done)
        (by decide) h
  | load =>
      exact Shifts.does (.keep (slot_shifts _) fun v => .keep (retain_shifts v.2) fun _ =>
        .put (push_shifts _) fun _ => done) (by decide) h
  | declare =>
      exact Shifts.does (.take pop_shifts fun _ => .keep (slot_shifts _) fun v =>
        .keep (release_shifts v.2) fun _ => .keep (setSlot_shifts _ _) fun _ => done) (by decide) h
  | assign =>
      exact Shifts.does (.put top_shifts fun v => .keep (retain_shifts v) fun _ =>
        .keep (slot_shifts _) fun w => .keep (release_shifts w.2) fun _ =>
          .keep (setSlot_shifts _ _) fun _ => done) (by decide) h
  | neg =>
      exact Shifts.does (.take popInt_shifts fun _ => .put (push_shifts _) fun _ => done)
        (by decide) h
  | not =>
      exact Shifts.does (.take popBool_shifts fun _ => .put (push_shifts _) fun _ => done)
        (by decide) h
  | stringify => exact Shifts.does (.put stringify_shifts fun _ => done) (by decide) h
  | add | sub | mul => exact Shifts.does (.put (arith_shifts _) fun _ => done) (by decide) h
  | div => exact divide_does (.inl ⟨rfl, rfl⟩) h
  | rem => exact divide_does (.inr ⟨rfl, rfl⟩) h
  | and | or => exact Shifts.does (.put (logic_shifts _) fun _ => done) (by decide) h
  | eq | ne => exact Shifts.does (.put (equality_shifts _) fun _ => done) (by decide) h
  | lt | le | gt | ge => exact Shifts.does (.put (compare_shifts _) fun _ => done) (by decide) h
  | strEq | strNe =>
      exact Shifts.does (.take (popTexts_shifts _) fun _ => .put (push_shifts _) fun _ => done)
        (by decide) h
  | append =>
      exact Shifts.does (.take (popTexts_shifts _) fun _ => .put (pushNew_shifts _) fun _ => done)
        (by decide) h
  | write | writeln => exact Shifts.does (.put (write_shifts _ _) fun _ => done) (by decide) h
  | label => exact Shifts.does done (by decide) h
  | jump =>
      obtain ⟨_, u, hj, h⟩ := bind_eq_ok.mp h
      obtain ⟨htarget, hstack⟩ := jump_eq_ok hj
      cases h
      exact .jumps rfl htarget ⟨[], [], s.stack, rfl, hstack, rfl, rfl⟩
  | jumpFalse => exact jumpFalse_does h

theorem instr_does {i : Instr} {e : Option RuntimeError} (h : instr m i s = .ok (e, t)) :
    ∃ op, i.op? = some op ∧ Does m op i.arg s e t := by
  cases hop : i.op? with
  | none =>
      rw [instr, hop] at h
      cases h
  | some op => exact ⟨op, rfl, op_does hop h⟩

end Exec

namespace Machine

variable {m : Machine} {s t : MachineState}

/-- A step that goes on has performed the instruction at its place and moved on behind it. -/
theorem step_eq_running (h : m.step s = .running t) :
    ∃ i op u, m.program.instrs[s.ip]? = some i ∧ i.op? = some op ∧ Exec.Does m op i.arg s none u ∧
      t = { u with ip := u.ip + 1 } := by
  rw [step] at h
  split at h
  · cases h
  case h_2 i hi =>
    split at h
    case h_3 u hrun =>
      cases h
      obtain ⟨op, hop, hdoes⟩ := Exec.instr_does hrun
      exact ⟨i, op, u, hi, hop, hdoes, rfl⟩
    all_goals cases h

/-- A run ends behind its code, or because a right operand is zero. -/
theorem step_eq_ended {e : Option RuntimeError} (h : m.step s = .ended e t) :
    e = none ∧ t = s ∧ m.program.instrs.size ≤ s.ip ∨
    ∃ i op cause a rest, m.program.instrs[s.ip]? = some i ∧ i.op? = some op ∧
      (op = .div ∧ cause = .divisionByZero ∨ op = .rem ∧ cause = .remainderByZero) ∧
      s.stack = .int 0 :: .int a :: rest ∧ e = some ⟨s.ip, cause⟩ ∧
      t = { s with stack := rest } := by
  rw [step] at h
  split at h
  case h_1 hnone =>
    cases h
    exact .inl ⟨rfl, rfl, Array.getElem?_eq_none_iff.mp hnone⟩
  case h_2 i hi =>
    split at h
    case h_2 e' u hrun =>
      cases h
      obtain ⟨op, hop, hdoes⟩ := Exec.instr_does hrun
      cases hdoes with
      | fails hcause hstack => exact .inr ⟨i, op, _, _, _, hi, hop, hcause, hstack, rfl, rfl⟩
    all_goals cases h

end Machine

end BlockLang

import BlockLang.Proofs.Denotation
import BlockLang.Proofs.Loading

/-! The machine follows the evaluation. The code of a node, run from a stack, does what the evaluation
of the node does: if that has a value, the run arrives behind the code with the value on top of the
stack; if it hands control to a loop, the run arrives behind the label with the stack with which the
loop was entered; if it fails, so does the machine, with the same output. Every instruction on the way
finds a stack of the height that was noted when it was emitted.

An evaluation that runs out of rounds stands for a run that takes at least as many steps. -/

namespace BlockLang.Plain

/-- A run of a machine from a state, and the number of rounds of the evaluation that it follows. -/
structure Run where
  machine : Machine
  code : Context
  loaded : Loaded machine code
  start : State
  rounds : Nat

namespace Run

/-- A state whose stack is as high as its next instruction expects. -/
def Poised (R : Run) (s : State) : Prop :=
  ∃ x, R.code.code.toList[s.ip]? = some x ∧ s.stack.length = x.depth

/-- The states of a run and the number of steps that led to them. -/
inductive Visits (R : Run) : Nat → State → Prop where
  | start : Visits R 0 R.start
  | step {n : Nat} {s t : State} : Visits R n s → R.Poised s →
      Plain.step R.machine s = some (.running t) → Visits R (n + 1) t

/-- What may hold after a number of steps, of the world of the evaluation and the state of the
machine. -/
abbrev Cond := Nat → World (Array Datum) → State → Prop

/-- After at least `k` steps the machine is at a place and has a stack, and its slots and output are
those of the world. -/
structure At (R : Run) (k ip : Nat) (stack : List Value) (n : Nat) (w : World (Array Datum))
    (s : State) : Prop where
  enough : k ≤ n
  ip_eq : s.ip = ip
  stack_eq : s.stack = stack
  output_eq : s.output = w.output
  slots_eq : s.slots.map (Value.datum? R.machine.program) = w.vars.map some
  small : w.vars.size ≤ tableLimit

/-- The same, with a value on top of the stack. -/
def Yields (R : Run) (k ip : Nat) (stack : List Value) (d : Datum) : Cond := fun n w s =>
  ∃ v : Value, v.datum? R.machine.program = some d ∧ R.At k ip (v :: stack) n w s

/-- What holds where a `break` or a `continue` leads to. -/
structure Exits where
  leave : Cond
  again : Cond

/-- The run reaches a state that fits the result of an evaluation. -/
def Reaches {α : Type} (R : Run) (exits : Exits) (post : α → Cond) :
    Except Stop α × World (Array Datum) → Prop
  | (.ok a, w) => ∃ n s, R.Visits n s ∧ post a n w s
  | (.error .leave, w) => ∃ n s, R.Visits n s ∧ exits.leave n w s
  | (.error .again, w) => ∃ n s, R.Visits n s ∧ exits.again n w s
  | (.error (.failed cause), w) => ∃ n s e t, R.Visits n s ∧ R.Poised s ∧
      Plain.step R.machine s = some (.ended (some e) t) ∧ e.cause = cause ∧ t.output = w.output
  | (.error .outOfRounds, _) => ∃ n s, R.Visits n s ∧ R.rounds ≤ n
  | (.error .stuck, _) => True

/-- From every state of the run that fits, the run follows an evaluation. -/
def Simulates {α : Type} (R : Run) (exits : Exits) (pre : Cond) (x : Eval (Array Datum) α)
    (post : α → Cond) : Prop :=
  ∀ n w s, R.Visits n s → pre n w s → R.Reaches exits post (x w)

/-- The machine takes a step of its own. -/
def Takes (R : Run) (pre post : Cond) : Prop :=
  ∀ n w s, pre n w s → R.Poised s ∧
    ∃ t, Plain.step R.machine s = some (.running t) ∧ post (n + 1) w t

variable {R : Run} {α β : Type} {exits : Exits} {pre mid : Cond} {x : Eval (Array Datum) α}
  {k k' ip : Nat} {stack : List Value}

theorem At.mono {n : Nat} {w : World (Array Datum)} {s : State} (h : R.At k ip stack n w s)
    (hk : k' ≤ k) : R.At k' ip stack n w s :=
  ⟨Nat.le_trans hk h.enough, h.ip_eq, h.stack_eq, h.output_eq, h.slots_eq, h.small⟩

theorem Reaches.mono {post post' : α → Cond} {r : Except Stop α × World (Array Datum)}
    (h : R.Reaches exits post r)
    (hpost : ∀ a n w s, R.Visits n s → post a n w s → ∃ n' s', R.Visits n' s' ∧ post' a n' w s') :
    R.Reaches exits post' r := by
  rcases r with ⟨r, w⟩
  cases r with
  | ok a =>
      obtain ⟨n, s, hv, hp⟩ := h
      exact hpost a n w s hv hp
  | error why => cases why <;> exact h

theorem Simulates.pure {post : α → Cond} {a : α} (h : ∀ n w s, pre n w s → post a n w s) :
    R.Simulates exits pre (pure a) post :=
  fun n w s hv hp => ⟨n, s, hv, h n w s hp⟩

/-- Evaluations in a row are simulated in a row. -/
theorem Simulates.bind {f : α → Eval (Array Datum) β} {mid : α → Cond} {post : β → Cond}
    (hx : R.Simulates exits pre x mid) (hf : ∀ a, R.Simulates exits (mid a) (f a) post) :
    R.Simulates exits pre (x >>= f) post := by
  intro n w s hv hp
  have hr := hx n w s hv hp
  rw [Sequence.bind_apply]
  rcases hxw : x w with ⟨r, w'⟩
  rw [hxw] at hr
  cases r with
  | ok a =>
      obtain ⟨n', s', hv', hm⟩ := hr
      exact hf a n' w' s' hv' hm
  | error why => cases why <;> exact hr

theorem Simulates.mono {post post' : α → Cond} (h : R.Simulates exits pre x post)
    (hpost : ∀ a n w s, post a n w s → post' a n w s) : R.Simulates exits pre x post' :=
  fun n w s hv hp => (h n w s hv hp).mono fun a n' w' s' hv' hp' =>
    ⟨n', s', hv', hpost a n' w' s' hp'⟩

theorem Simulates.of_pre {post : α → Cond} (h : R.Simulates exits mid x post)
    (hpre : ∀ n w s, pre n w s → mid n w s) : R.Simulates exits pre x post :=
  fun n w s hv hp => h n w s hv (hpre n w s hp)

theorem Simulates.before {post : α → Cond} (ht : R.Takes pre mid)
    (h : R.Simulates exits mid x post) : R.Simulates exits pre x post := by
  intro n w s hv hp
  obtain ⟨hpoised, t, hstep, hm⟩ := ht n w s hp
  exact h (n + 1) w t (hv.step hpoised hstep) hm

theorem Simulates.after {mid post : α → Cond} (h : R.Simulates exits pre x mid)
    (ht : ∀ a, R.Takes (mid a) (post a)) : R.Simulates exits pre x post :=
  fun n w s hv hp => (h n w s hv hp).mono fun a n' w' s' hv' hm => by
    obtain ⟨hpoised, t, hstep, hp'⟩ := ht a n' w' s' hm
    exact ⟨n' + 1, t, hv'.step hpoised hstep, hp'⟩

theorem Takes.mono {post post' : Cond} (h : R.Takes pre post)
    (hpost : ∀ n w s, post n w s → post' n w s) : R.Takes pre post' := by
  intro n w s hp
  obtain ⟨hpoised, t, hstep, hp'⟩ := h n w s hp
  exact ⟨hpoised, t, hstep, hpost _ _ _ hp'⟩

/-- Where a body ends or a `continue` leads to the loop goes on; where a `break` leads to it does
not. -/
theorem Simulates.attempt {x : Eval (Array Datum) Datum} {leave again : Cond}
    (h : R.Simulates ⟨leave, again⟩ pre x fun _ => again) :
    R.Simulates exits pre (Eval.attempt x) fun goesOn => if goesOn then again else leave := by
  intro n w s hv hp
  have hr := h n w s hv hp
  rw [Eval.attempt]
  rcases hxw : x w with ⟨r, w'⟩
  rw [hxw] at hr
  cases r with
  | ok d => exact hr
  | error why => cases why <;> exact hr

/-- Every round takes a step, so that running out of rounds takes many. -/
theorem Simulates.iterate {round : Eval (Array Datum) Bool} (again : Nat → Cond) (leave : Cond)
    (henough : ∀ j n w s, again j n w s → j ≤ n)
    (hround : ∀ j, k ≤ j → R.Simulates exits (again j) round fun goesOn =>
      if goesOn then again (j + 1) else leave) :
    ∀ rounds j, k ≤ j → R.rounds ≤ j + rounds →
      R.Simulates exits (again j) (Eval.iterate round rounds) fun d n w s => d = .unit ∧ leave n w s
  | 0, j, _, hmany => fun n w s hv hp => ⟨n, s, hv, Nat.le_trans hmany (henough j n w s hp)⟩
  | rounds + 1, j, hj, hmany => by
      refine (hround j hj).bind fun goesOn => ?_
      cases goesOn with
      | true =>
          exact Simulates.iterate again leave henough hround rounds (j + 1) (by omega) (by omega)
      | false => exact .pure fun n w s hp => ⟨rfl, hp⟩

theorem Simulates.of_yields {d : Datum} {post : α → Cond}
    (h : ∀ v : Value, v.datum? R.machine.program = some d →
      R.Simulates exits (R.At k ip (v :: stack)) x post) :
    R.Simulates exits (R.Yields k ip stack d) x post := by
  intro n w s hv hp
  obtain ⟨v, hd, hat⟩ := hp
  exact h v hd n w s hv hat

/-! ### Instructions -/

/-- The code and the strings of a context are the first ones of the run. -/
structure Within (R : Run) (c : Context) : Prop where
  code : c.code.toList <+: R.code.code.toList
  strings : c.strings.toList <+: R.code.strings.toList

variable {c c' : Context} {op : Op} {arg : Int64} {l slot pos : Nat}

theorem Within.of_grows {n : Nat} {f : Int64 → Nat} (h : R.Within c') (hg : Grows c c' n f) :
    R.Within c :=
  ⟨hg.code.trans h.code, hg.strings.trans h.strings⟩

theorem Within.emitted (h : R.Within (c.emit op arg)) :
    R.code.code.toList[c.code.size]? = some ⟨Instr.of op arg, c.depth⟩ :=
  getElem?_of_prefix h.code (Context.getElem?_emit c op arg)

/-- A label that has been emitted is where it leads to. -/
theorem Within.target (h : R.Within (c.emitAt .label l)) :
    target? R.machine (Int64.ofNat l) = some c.code.size :=
  R.loaded.target h.emitted

theorem Within.constant {n : Nat} {text : String} (h : R.Within c) (hs : c.strings[n]? = some text) :
    R.machine.program.constant? (Int64.ofNat n) = some text := by
  refine R.loaded.constant ?_
  rw [← Array.getElem?_toList] at hs ⊢
  exact getElem?_of_prefix h.strings hs

section Step

variable {s : State} (h : R.Within (c.emit op arg)) (hip : s.ip = c.code.size)

include h hip

theorem poised_of_emitted (hlen : s.stack.length = c.depth) : R.Poised s :=
  ⟨_, hip ▸ h.emitted, hlen⟩

theorem instr_of_emitted :
    R.machine.program.instrs[s.ip]? = some (Instr.of op arg) ∧
      instr R.machine (Instr.of op arg) s = perform R.machine s op arg := by
  refine ⟨?_, by rw [instr, Instr.op?_of]; rfl⟩
  rw [← Array.getElem?_toList, R.loaded.instrs, List.getElem?_map, hip, h.emitted]
  rfl

theorem step_running {t : State} (hp : perform R.machine s op arg = some (none, t)) :
    Plain.step R.machine s = some (.running { t with ip := t.ip + 1 }) := by
  obtain ⟨hi, hinstr⟩ := instr_of_emitted h hip
  simp only [Plain.step, hi, hinstr, hp]

theorem step_ended {e : RuntimeError} {t : State}
    (hp : perform R.machine s op arg = some (some e, t)) :
    Plain.step R.machine s = some (.ended (some e) t) := by
  obtain ⟨hi, hinstr⟩ := instr_of_emitted h hip
  simp only [Plain.step, hi, hinstr, hp]

end Step

/-- An instruction that turns a stack into another one. -/
theorem takes_stack {stack' : List Value} (h : R.Within (c.emit op arg))
    (hlen : stack.length = c.depth)
    (hp : ∀ s : State, s.stack = stack → perform R.machine s op arg = nextWith s stack') :
    R.Takes (R.At k c.code.size stack) (R.At (k + 1) (c.emit op arg).code.size stack') := by
  intro n w s hat
  have hstep := step_running h hat.ip_eq (hp s hat.stack_eq)
  refine ⟨poised_of_emitted h hat.ip_eq (hat.stack_eq ▸ hlen), _, hstep, ?_⟩
  refine ⟨Nat.succ_le_succ hat.enough, ?_, rfl, hat.output_eq, hat.slots_eq, hat.small⟩
  rw [Context.size_emit]
  exact congrArg (· + 1) hat.ip_eq

theorem takes_label (h : R.Within (c.emitAt .label l)) (hlen : stack.length = c.depth) :
    R.Takes (R.At k c.code.size stack) (R.At (k + 1) (c.emitAt .label l).code.size stack) :=
  takes_stack h hlen fun _ hs => hs ▸ rfl

theorem takes_pop {v : Value} (h : R.Within (c.emit .pop 0)) (hlen : stack.length + 1 = c.depth) :
    R.Takes (R.At k c.code.size (v :: stack)) (R.At (k + 1) (c.emit .pop 0).code.size stack) := by
  refine takes_stack h hlen fun s hs => ?_
  show onTop s.stack _ = _
  rw [hs]
  rfl

theorem takes_pushUnit (h : R.Within (c.emit .pushUnit 0)) (hlen : stack.length = c.depth) :
    R.Takes (R.At k c.code.size stack)
      (R.Yields (k + 1) (c.emit .pushUnit 0).code.size stack .unit) :=
  (takes_stack h hlen fun _ hs => hs ▸ rfl).mono fun _ _ _ hat => ⟨.unit, rfl, hat⟩

theorem takes_jump (h : R.Within (c.emitAt .jump l)) (hlen : stack.length = c.depth)
    (ht : target? R.machine (Int64.ofNat l) = some pos) :
    R.Takes (R.At k c.code.size stack) (R.At (k + 1) (pos + 1) stack) := by
  intro n w s hat
  have hp : perform R.machine s .jump (Int64.ofNat l) = some (none, { s with ip := pos }) := by
    show jump R.machine _ s = _
    rw [jump, ht]
    rfl
  refine ⟨poised_of_emitted h hat.ip_eq (hat.stack_eq ▸ hlen), _,
    step_running h hat.ip_eq hp, ?_⟩
  exact ⟨Nat.succ_le_succ hat.enough, rfl, hat.stack_eq, hat.output_eq, hat.slots_eq, hat.small⟩

/-- A conditional jump takes the truth value and goes on behind itself or behind the label. -/
theorem takes_jumpFalse {b : Bool} (h : R.Within (c.emitAt .jumpFalse l))
    (hlen : stack.length + 1 = c.depth) (ht : target? R.machine (Int64.ofNat l) = some pos) :
    R.Takes (R.At k c.code.size (.bool b :: stack))
      (R.At (k + 1) (if b then c.code.size + 1 else pos + 1) stack) := by
  cases b with
  | true =>
      have htrue : R.Takes (R.At k c.code.size (.bool true :: stack))
          (R.At (k + 1) (c.emitAt .jumpFalse l).code.size stack) := by
        refine takes_stack h hlen fun s hs => ?_
        show onBool s.stack _ = _
        rw [hs]
        rfl
      rw [Context.size_emitAt] at htrue
      exact htrue
  | false =>
      intro n w s hat
      have hp : perform R.machine s .jumpFalse (Int64.ofNat l) =
          some (none, { s.withStack stack with ip := pos }) := by
        show onBool s.stack _ = _
        rw [hat.stack_eq]
        show jump R.machine _ _ = _
        rw [jump, ht]
        rfl
      refine ⟨poised_of_emitted h hat.ip_eq (hat.stack_eq ▸ hlen), _,
        step_running h hat.ip_eq hp, ?_⟩
      exact ⟨Nat.succ_le_succ hat.enough, rfl, rfl, hat.output_eq, hat.slots_eq, hat.small⟩

/-- A condition and the jump behind it choose between two evaluations. -/
theorem Simulates.branch {d : Datum} {x y : Eval (Array Datum) α} {post : α → Cond}
    (h : R.Within (c.emitAt .jumpFalse l)) (hlen : stack.length + 1 = c.depth)
    (ht : target? R.machine (Int64.ofNat l) = some pos)
    (hx : R.Simulates exits (R.At (k + 1) (c.code.size + 1) stack) x post)
    (hy : R.Simulates exits (R.At (k + 1) (pos + 1) stack) y post) :
    R.Simulates exits (R.Yields k c.code.size stack d)
      (Eval.truth d >>= fun b => if b then x else y) post := by
  refine .of_yields fun v hv => ?_
  cases d with
  | bool b =>
      obtain rfl := Value.eq_bool hv
      refine .before (takes_jumpFalse h hlen ht) ?_
      cases b with
      | true => exact hx
      | false => exact hy
  | _ => exact fun _ _ _ _ _ => trivial

/-- An instruction that pushes a value. -/
theorem simulates_push {v : Value} {d : Datum} (h : R.Within (c.emit op arg))
    (hlen : stack.length = c.depth) (hv : v.datum? R.machine.program = some d)
    (hp : ∀ s : State, perform R.machine s op arg = nextWith s (v :: s.stack)) :
    R.Simulates exits (R.At k c.code.size stack) (pure d)
      (R.Yields k (c.emit op arg).code.size stack) := by
  have htakes : R.Takes (R.At k c.code.size stack)
      (R.At (k + 1) (c.emit op arg).code.size (v :: stack)) :=
    takes_stack h hlen fun s hs => hs ▸ hp s
  exact .before htakes (.pure fun _ _ _ hat => ⟨v, hv, hat.mono (Nat.le_succ k)⟩)

/-- Loading a slot is evaluating a variable. -/
theorem simulates_load {t : Ty} (h : R.Within (c.emitAt .load slot)) (hlen : stack.length = c.depth) :
    R.Simulates exits (R.At k c.code.size stack) (Eval.expr .slotted R.rounds (.var slot t))
      (R.Yields k (c.emitAt .load slot).code.size stack) := by
  intro n w s hv hat
  have heval : Eval.expr .slotted R.rounds (.var slot t) w = Eval.need (w.vars[slot]?) w := rfl
  rw [heval]
  cases hd : w.vars[slot]? with
  | none => trivial
  | some d =>
      have hlt := (Array.getElem?_eq_some_iff.mp hd).1
      have hsmall := hat.small
      have hget := congrArg (·[slot]?) hat.slots_eq
      simp only [Array.getElem?_map, hd, Option.map_some] at hget
      obtain ⟨v, hslot, hvd⟩ := Option.map_eq_some_iff.mp hget
      have hp : perform R.machine s .load (Int64.ofNat slot) = nextWith s (v :: s.stack) := by
        simp only [perform, index?_ofNat (by omega : slot ≤ tableLimit), Option.bind_eq_bind,
          Option.bind_some, hslot]
      refine ⟨n + 1, _, hv.step (poised_of_emitted h hat.ip_eq (hat.stack_eq ▸ hlen))
        (step_running h hat.ip_eq hp), v, hvd, Nat.le_succ_of_le hat.enough, ?_, ?_, hat.output_eq,
        hat.slots_eq, hat.small⟩
      · rw [Context.size_emitAt]
        exact congrArg (· + 1) hat.ip_eq
      · exact congrArg (v :: ·) hat.stack_eq

/-- An instruction that stores a value in a slot. -/
theorem simulates_store {v : Value} {d : Datum} {stack' : List Value}
    (h : R.Within (c.emitAt op slot)) (hlen : stack.length = c.depth)
    (hv : v.datum? R.machine.program = some d)
    (hp : ∀ s : State, s.stack = stack →
      perform R.machine s op (Int64.ofNat slot) = store s (Int64.ofNat slot) v stack') :
    R.Simulates exits (R.At k c.code.size stack) (Eval.change (Storage.put? · slot d)) fun _ =>
      R.At k (c.emitAt op slot).code.size stack' := by
  intro n w s hvisit hat
  rw [Eval.change]
  by_cases hslot : slot < w.vars.size
  · have hsmall := hat.small
    have hsize : s.slots.size = w.vars.size := by
      have hsizes := congrArg Array.size hat.slots_eq
      rwa [Array.size_map, Array.size_map] at hsizes
    have hperform : perform R.machine s op (Int64.ofNat slot) = some (none,
        { s with stack := stack', slots := s.slots.setIfInBounds slot v }) := by
      rw [hp s hat.stack_eq, store, index?_ofNat (by omega : slot ≤ tableLimit)]
      exact if_pos (hsize ▸ hslot)
    have hput : Storage.put? w.vars slot d = some (w.vars.setIfInBounds slot d) := if_pos hslot
    rw [hput]
    refine ⟨n + 1, _, hvisit.step (poised_of_emitted h hat.ip_eq (hat.stack_eq ▸ hlen))
      (step_running h hat.ip_eq hperform), Nat.le_succ_of_le hat.enough, ?_, rfl, hat.output_eq,
      ?_, ?_⟩
    · rw [Context.size_emitAt]
      exact congrArg (· + 1) hat.ip_eq
    · show (s.slots.setIfInBounds slot v).map _ = (w.vars.setIfInBounds slot d).map some
      rw [Array.map_setIfInBounds, Array.map_setIfInBounds, hat.slots_eq, hv]
    · show ((w.vars.setIfInBounds slot d).size : Int) ≤ _
      rw [Array.size_setIfInBounds]
      exact hat.small
  · have hput : Storage.put? w.vars slot d = none := if_neg hslot
    rw [hput]
    trivial

theorem simulates_assign {v : Value} {d : Datum} (h : R.Within (c.emitAt .assign slot))
    (hlen : stack.length + 1 = c.depth) (hv : v.datum? R.machine.program = some d) :
    R.Simulates exits (R.At k c.code.size (v :: stack)) (Eval.change (Storage.put? · slot d)) fun _ =>
      R.At k (c.emitAt .assign slot).code.size (v :: stack) := by
  refine simulates_store h hlen hv fun s hs => ?_
  show onTop s.stack (fun v _ => store s _ v s.stack) = _
  rw [hs]
  rfl

theorem simulates_declare {v : Value} {d : Datum} (h : R.Within (c.emitAt .declare slot))
    (hlen : stack.length + 1 = c.depth) (hv : v.datum? R.machine.program = some d) :
    R.Simulates exits (R.At k c.code.size (v :: stack)) (Eval.change (Storage.put? · slot d)) fun _ =>
      R.At k (c.emitAt .declare slot).code.size stack := by
  refine simulates_store h hlen hv fun s hs => ?_
  show onTop s.stack _ = _
  rw [hs]
  rfl

/-- An instruction that prints a value. -/
theorem simulates_write {v : Value} {d : Datum} {newline : Bool}
    (h : R.Within (c.emit (if newline then .writeln else .write) 0))
    (hlen : stack.length + 1 = c.depth) (hv : v.datum? R.machine.program = some d) :
    R.Simulates exits (R.At k c.code.size (v :: stack))
      (Eval.print (d.shown ++ if newline then "\n" else "")) fun _ =>
        R.At k (c.emit (if newline then .writeln else .write) 0).code.size stack := by
  intro n w s hvisit hat
  have hperform : perform R.machine s (if newline then .writeln else .write) 0 = some (none,
      { s with
        stack := stack
        output := s.output ++ (d.shown ++ if newline then "\n" else "") }) := by
    have hwrite : perform R.machine s (if newline then .writeln else .write) 0 =
        write R.machine.program s (if newline then "\n" else "") := by
      cases newline <;> rfl
    rw [hwrite, write, hat.stack_eq]
    show (v.shown? R.machine.program).bind _ = _
    rw [Value.shown?_of_datum? hv]
    rfl
  refine ⟨n + 1, _, hvisit.step (poised_of_emitted h hat.ip_eq (hat.stack_eq ▸ hlen))
    (step_running h hat.ip_eq hperform), Nat.le_succ_of_le hat.enough, ?_, rfl, ?_, hat.slots_eq,
    hat.small⟩
  · rw [Context.size_emit]
    exact congrArg (· + 1) hat.ip_eq
  · exact congrArg (· ++ _) hat.output_eq

theorem simulates_unary {uop : UnaryOp} {v : Value} {d : Datum}
    (h : R.Within (c.emit (Emit.unaryOp uop) 0)) (hlen : stack.length + 1 = c.depth)
    (hv : v.datum? R.machine.program = some d) :
    R.Simulates exits (R.At k c.code.size (v :: stack)) (Eval.need (uop.apply d))
      (R.Yields k (c.emit (Emit.unaryOp uop) 0).code.size stack) := by
  cases hr : uop.apply d with
  | none => exact fun _ _ _ _ _ => trivial
  | some r =>
      obtain ⟨v', hv', hturns⟩ := unary_turns hv hr
      exact .before (takes_stack h hlen hturns)
        (.pure fun _ _ _ hat => ⟨v', hv', hat.mono (Nat.le_succ k)⟩)

/-- The instruction of an operator is applying it to the two values on the stack. -/
theorem simulates_binary {bop : BinaryOp} {left : Ty} {a b : Value} {x y : Datum}
    (h : R.Within (c.emit (Emit.binaryOp bop left) 0)) (hlen : stack.length + 2 = c.depth)
    (ha : a.datum? R.machine.program = some x) (hb : b.datum? R.machine.program = some y) :
    R.Simulates exits (R.At k c.code.size (b :: a :: stack)) (Eval.result (bop.apply left x y))
      (R.Yields k (c.emit (Emit.binaryOp bop left) 0).code.size stack) := by
  cases hr : bop.apply left x y with
  | none => exact fun _ _ _ _ _ => trivial
  | some r =>
      have hcomputes : Computes R.machine _ (b :: a :: stack) stack r := binary_computes ha hb hr
      cases r with
      | ok d =>
          obtain ⟨v, hv, hturns⟩ := hcomputes
          exact .before (takes_stack h hlen hturns)
            (.pure fun _ _ _ hat => ⟨v, hv, hat.mono (Nat.le_succ k)⟩)
      | error cause =>
          intro n w s hvisit hat
          obtain ⟨t, hperform, hout⟩ := hcomputes s hat.stack_eq
          exact ⟨n, s, _, t, hvisit, poised_of_emitted h hat.ip_eq (hat.stack_eq ▸ hlen),
            step_ended h hat.ip_eq hperform, rfl, hout.trans hat.output_eq⟩

/-! ### Loops -/

/-- The labels of the loop around a node lead to its exits, with the stack that the loop was entered
with, which lies at the bottom of the present one. -/
def Fits (R : Run) (exits : Exits) (k : Nat) (stack : List Value) : Option LoopFrame → Prop
  | none => True
  | some f => ∃ below leave again, below <:+ stack ∧ below.length = f.depth ∧
      target? R.machine (Int64.ofNat f.leave) = some leave ∧
      target? R.machine (Int64.ofNat f.again) = some again ∧
      (∀ n w s, R.At k (leave + 1) below n w s → exits.leave n w s) ∧
      ∀ n w s, R.At k (again + 1) below n w s → exits.again n w s

theorem Fits.mono {frame : Option LoopFrame} {stack' : List Value} (h : R.Fits exits k stack frame)
    (hk : k ≤ k') (hstack : stack <:+ stack') : R.Fits exits k' stack' frame := by
  cases frame with
  | none => trivial
  | some f =>
      obtain ⟨below, leave, again, hsuffix, hlen, htl, hta, hl, ha⟩ := h
      exact ⟨below, leave, again, hsuffix.trans hstack, hlen, htl, hta,
        fun n w s hat => hl n w s (hat.mono hk), fun n w s hat => ha n w s (hat.mono hk)⟩

/-- Dropping values is no part of the evaluation. -/
theorem simulates_dropped {post : α → Cond} (n : Nat) {c : Context} {stack : List Value}
    (h : R.Within (c.dropped n)) (hlen : stack.length = c.depth) (hn : n ≤ stack.length)
    (hx : R.Simulates exits (R.At k (c.dropped n).code.size (stack.drop n)) x post) :
    R.Simulates exits (R.At k c.code.size stack) x post := by
  induction n generalizing c stack with
  | zero => exact hx
  | succ n ih =>
      cases stack with
      | nil => cases hn
      | cons v stack =>
          have hpop : R.Within (c.emit .pop 0) := h.of_grows (Grows.dropped _ n)
          have hdepth : stack.length = (c.emit .pop 0).depth := by
            rw [List.length_cons] at hlen
            show _ = c.depth + 0 - 1
            omega
          refine .before (takes_pop hpop hlen) ?_
          exact (ih h hdepth (Nat.le_of_succ_le_succ hn) hx).of_pre fun _ _ _ hat =>
            hat.mono (Nat.le_succ k)

/-- A jump out of a loop's body takes the stack back to what it was. -/
theorem simulates_jumpedOut {post : α → Cond} {f : LoopFrame} {below : List Value}
    (h : R.Within (c.jumpedOut f l)) (hlen : stack.length = c.depth) (hsuffix : below <:+ stack)
    (hbelow : below.length = f.depth) (ht : target? R.machine (Int64.ofNat l) = some pos)
    (hx : R.Simulates exits (R.At k (pos + 1) below) x post) :
    R.Simulates exits (R.At k c.code.size stack) x post := by
  have hjump : R.Within ((c.dropped (c.depth - f.depth)).emitAt .jump l) := ⟨h.code, h.strings⟩
  have hle := hsuffix.length_le
  have hdrop : stack.drop (c.depth - f.depth) = below := by
    rw [← hlen, ← hbelow]
    exact (List.suffix_iff_eq_drop.mp hsuffix).symm
  refine simulates_dropped _ (hjump.of_grows (Grows.one _ _ _)) hlen (by omega) ?_
  rw [hdrop]
  refine .before (takes_jump hjump ?_ ht) (hx.of_pre fun _ _ _ hat => hat.mono (Nat.le_succ k))
  rw [Context.depth_dropped]
  omega

theorem Takes.of_yields {post : Cond} {d : Datum}
    (h : ∀ v : Value, v.datum? R.machine.program = some d → R.Takes (R.At k ip (v :: stack)) post) :
    R.Takes (R.Yields k ip stack d) post := by
  intro n w s hp
  obtain ⟨v, hv, hat⟩ := hp
  exact h v hv n w s hat

/-- The label behind a choice is passed with the value of the choice. -/
theorem takes_label_yields {d : Datum} (h : R.Within (c.emitAt .label l))
    (hlen : stack.length + 1 = c.depth) :
    R.Takes (R.Yields k c.code.size stack d) (R.Yields k (c.code.size + 1) stack d) := by
  refine .of_yields fun v hv => ?_
  have hstep : R.Takes (R.At k c.code.size (v :: stack)) _ := takes_label h hlen
  rw [Context.size_emitAt] at hstep
  exact hstep.mono fun _ _ _ hat => ⟨v, hv, hat.mono (Nat.le_succ k)⟩

theorem Yields.mono {d : Datum} {n : Nat} {w : World (Array Datum)} {s : State}
    (h : R.Yields k ip stack d n w s) (hk : k' ≤ k) : R.Yields k' ip stack d n w s := by
  obtain ⟨v, hv, hat⟩ := h
  exact ⟨v, hv, hat.mono hk⟩

theorem inBlock_slotted (x : Eval (Array Datum) α) : Eval.inBlock .slotted x = x := rfl

/-- One arm of a choice: a jump over the body, the body, and a jump behind the choice. -/
theorem arm_simulates {c₁ c₂ : Context} {finish next base n : Nat} {d : Datum}
    {x y : Eval (Array Datum) Datum} (h : R.Within (c₂.closeArm finish next base))
    (hlay : Lays (c₁.emitAt .jumpFalse next) c₂ n) (hlen : stack.length + 1 = c₁.depth)
    (hfinish : target? R.machine (Int64.ofNat finish) = some pos)
    (hx : R.Simulates exits (R.At (k + 1) (c₁.emitAt .jumpFalse next).code.size stack) x
      (R.Yields (k + 1) c₂.code.size stack))
    (hy : R.Simulates exits (R.At (k + 1) (c₂.closeArm finish next base).code.size stack) y
      (R.Yields (k + 1) (pos + 1) stack)) :
    R.Simulates exits (R.Yields k c₁.code.size stack d)
      (Eval.truth d >>= fun b => if b then x else y) (R.Yields k (pos + 1) stack) := by
  have hlabel : R.Within ((c₂.emitAt .jump finish).emitAt .label next) := ⟨h.code, h.strings⟩
  have hjump : R.Within (c₂.emitAt .jump finish) := hlabel.of_grows (Grows.one _ _ _)
  have hfalse : R.Within (c₁.emitAt .jumpFalse next) :=
    (hjump.of_grows (Grows.one _ _ _)).of_grows hlay.grows
  rw [Context.size_emitAt] at hx
  rw [Context.closeArm, Context.size_withDepth, Context.size_emitAt] at hy
  refine .branch hfalse hlen hlabel.target ?_ (hy.mono fun _ _ _ _ h => h.mono (Nat.le_succ k))
  refine hx.after fun d => .of_yields fun v hv => (takes_jump hjump ?_ hfinish).mono fun _ _ _ hat =>
    ⟨v, hv, hat.mono (Nat.le_add_right k 2)⟩
  rw [hlay.depth, Context.depth_emitAt, ← hlen]
  rfl

/-- What follows the body of a loop: its value is dropped, the run goes back to the start, and the
label of the end leads to the unit value. -/
theorem Within.closeLoop {c₂ : Context} {f : LoopFrame} {first : Nat}
    (h : R.Within (c₂.closeLoop f first)) (hlen : stack.length + 1 = c₂.depth)
    (hdepth : stack.length = f.depth) (ht : target? R.machine (Int64.ofNat f.again) = some pos) :
    target? R.machine (Int64.ofNat f.leave) = some (c₂.code.size + 2) ∧
      (∀ j (v : Value), R.Takes (R.At j c₂.code.size (v :: stack))
        (R.At (j + 1) (c₂.code.size + 1) stack)) ∧
      (∀ j, R.Takes (R.At j (c₂.code.size + 1) stack) (R.At (j + 1) (pos + 1) stack)) ∧
      ∀ j, R.Takes (R.At j (c₂.code.size + 3) stack)
        (R.Yields (j + 1) (c₂.closeLoop f first).code.size stack .unit) := by
  let back := ((c₂.emit .pop 0).emitAt .jump f.again).withLoop f first
  have hunit : R.Within ((back.emitAt .label f.leave).withDepth f.depth) :=
    h.of_grows (Grows.one _ _ _)
  have hlabel : R.Within (back.emitAt .label f.leave) := ⟨hunit.code, hunit.strings⟩
  have hloop : R.Within back := hlabel.of_grows (Grows.one _ _ _)
  have hjump : R.Within ((c₂.emit .pop 0).emitAt .jump f.again) := ⟨hloop.code, hloop.strings⟩
  have hpop : R.Within (c₂.emit .pop 0) := hjump.of_grows (Grows.one _ _ _)
  have hlen' : stack.length = (c₂.emit .pop 0).depth := by
    rw [Context.depth_emit, ← hlen]
    rfl
  have hsize : back.code.size = c₂.code.size + 2 := by
    rw [Context.size_withLoop, Context.size_emitAt, Context.size_emit]
  refine ⟨hsize ▸ hlabel.target, fun j v => ?_, fun j => ?_, fun j => ?_⟩
  · have hstep := takes_pop (k := j) (v := v) hpop hlen
    rwa [Context.size_emit] at hstep
  · have hstep := takes_jump (k := j) hjump hlen' ht
    rwa [Context.size_emit] at hstep
  · have hstep := takes_pushUnit (k := j) (c := (back.emitAt .label f.leave).withDepth f.depth) h
      hdepth
    rwa [Context.size_withDepth, Context.size_emitAt, hsize] at hstep

/-- A loop, from its condition and its body. -/
theorem loop_simulates {c₁ c₂ : Context} {m n : Nat} {cond body : Eval (Array Datum) Datum}
    (h : R.Within (c₂.closeLoop c.loopFrame c.code.size)) (hlen : stack.length = c.depth)
    (hlayc : Lays ((c.withLabels 2).emitAt .label c.labels) c₁ m)
    (hlayb : Lays (c₁.emitAt .jumpFalse (c.labels + 1)) c₂ n)
    (hcond : ∀ j, k ≤ j → R.Simulates exits (R.At j (c.code.size + 1) stack) cond
      (R.Yields j c₁.code.size stack))
    (hbody : ∀ j exits', R.Fits exits' j stack (some c.loopFrame) →
      R.Simulates exits' (R.At j (c₁.code.size + 1) stack) body (R.Yields j c₂.code.size stack)) :
    R.Simulates exits (R.At k c.code.size stack)
      (Eval.iterate (do if ← Eval.truth (← cond) then Eval.attempt body else return false) R.rounds)
      (R.Yields k (c₂.closeLoop c.loopFrame c.code.size).code.size stack) := by
  have hlen₁ : stack.length + 1 = c₁.depth := by
    rw [hlayc.depth, hlen]
    rfl
  have hlen₂ : stack.length + 1 = c₂.depth := by
    rw [hlayb.depth, Context.depth_emitAt, ← hlen₁]
    rfl
  have hwb : R.Within c₂ := h.of_grows ((Grows.refl c₂).closeLoop c.loopFrame c.code.size)
  have hwf : R.Within (c₁.emitAt .jumpFalse (c.labels + 1)) := hwb.of_grows hlayb.grows
  have hwc : R.Within c₁ := hwf.of_grows (Grows.one _ _ _)
  have hws : R.Within ((c.withLabels 2).emitAt .label c.labels) := hwc.of_grows hlayc.grows
  have hstart : target? R.machine (Int64.ofNat c.labels) = some c.code.size := hws.target
  obtain ⟨hleave, hpop, hback, hunit⟩ := h.closeLoop hlen₂ hlen hstart
  -- A round begins behind the first label with the stack of the entry, however the last one ended.
  have hround : ∀ j, k ≤ j → R.Simulates exits (R.At j (c.code.size + 1) stack)
      (do if ← Eval.truth (← cond) then Eval.attempt body else return false) fun goesOn =>
        if goesOn then R.At (j + 1) (c.code.size + 1) stack
        else R.At k (c₂.code.size + 3) stack := by
    intro j hj
    refine (hcond j hj).bind fun d => .branch hwf hlen₁ hleave ?_ ?_
    · let exits' : Exits :=
        ⟨R.At (j + 1) (c₂.code.size + 3) stack, R.At (j + 1) (c.code.size + 1) stack⟩
      have hfits : R.Fits exits' (j + 1) stack (some c.loopFrame) :=
        ⟨stack, _, _, List.suffix_refl _, hlen, hleave, hstart, fun _ _ _ h => h, fun _ _ _ h => h⟩
      have hrun := (hbody (j + 1) exits' hfits).after fun d => .of_yields fun v _ => hpop (j + 1) v
      have hrun := hrun.after fun _ => (hback (j + 2)).mono fun _ _ _ h =>
        h.mono (Nat.le_add_right (j + 1) 2)
      refine (Simulates.attempt hrun).mono fun goesOn n w s hp => ?_
      cases goesOn with
      | true => exact hp
      | false => exact hp.mono (Nat.le_succ_of_le hj)
    · exact .pure fun _ _ _ hat => hat.mono (Nat.le_succ_of_le hj)
  have henter : R.Takes (R.At k c.code.size stack) (R.At k (c.code.size + 1) stack) := by
    have hstep := takes_label (k := k) hws hlen
    rw [Context.size_emitAt] at hstep
    exact hstep.mono fun _ _ _ h => h.mono (Nat.le_succ k)
  have hloop := Simulates.iterate _ _ (fun _ _ _ _ h => h.enough) hround R.rounds k (Nat.le_refl k)
    (Nat.le_add_left _ _)
  refine .before henter (hloop.after fun d n w s hp => ?_)
  obtain ⟨rfl, hat⟩ := hp
  exact (hunit k).mono (fun _ _ _ h => h.mono (Nat.le_succ k)) n w s hat

/-! ### Trees -/

mutual

/-- The code of an expression simulates its evaluation and leaves its value on the stack. -/
theorem expr_simulates : ∀ (e : Expr .resolved) {frame : Option LoopFrame} {c c' : Context} {u : Unit}
    {exits : Exits} {k : Nat} {stack : List Value}, Emit.expr frame e c = .ok (u, c') →
      R.Within c' → stack.length = c.depth → R.Fits exits k stack frame →
        R.Simulates exits (R.At k c.code.size stack) (Eval.expr .slotted R.rounds e)
          (R.Yields k c'.code.size stack)
  | .int value _, _, _, _, _, _, _, _, h, hw, hlen, _ => by
      cases h
      exact simulates_push hw hlen rfl fun _ => rfl
  | .string value t, _, c, _, _, _, _, _, h, hw, hlen, _ => by
      obtain ⟨index, strings, hat, -, -, rfl⟩ := Emit.string_inv h
      refine simulates_push (v := .const (Int64.ofNat index)) (c := { c with strings }) hw hlen ?_
        fun _ => rfl
      rw [Value.datum?, hw.constant hat]
      rfl
  | .bool value _, _, _, _, _, _, _, _, h, hw, hlen, _ => by
      cases h
      refine simulates_push (v := .bool value) hw hlen rfl fun s => ?_
      cases value <;> rfl
  | .unit _, _, _, _, _, _, _, _, h, hw, hlen, _ => by
      cases h
      exact simulates_push hw hlen rfl fun _ => rfl
  | .var slot _, _, _, _, _, _, _, _, h, hw, hlen, _ => by
      cases h
      exact simulates_load hw hlen
  | .assign slot value _, _, c, _, _, exits, k, stack, h, hw, hlen, hfits => by
      obtain ⟨c₁, hv, rfl⟩ := Emit.assign_inv h
      have hlay := Emit.expr_lays value hv
      have hw₁ : R.Within c₁ := hw.of_grows (Grows.one _ _ _)
      rw [Eval.expr]
      refine (expr_simulates value hv hw₁ hlen hfits).bind fun d => .of_yields fun v hd => ?_
      exact (simulates_assign hw (by rw [hlay.depth, hlen]) hd).bind fun _ =>
        .pure fun _ _ _ hat => ⟨v, hd, hat⟩
  | .unary op operand _, _, c, _, _, exits, k, stack, h, hw, hlen, hfits => by
      obtain ⟨c₁, hv, rfl⟩ := Emit.unary_inv h
      have hlay := Emit.expr_lays operand hv
      have hw₁ : R.Within c₁ := hw.of_grows (Grows.one _ _ _)
      rw [Eval.expr]
      refine (expr_simulates operand hv hw₁ hlen hfits).bind fun d => .of_yields fun v hd => ?_
      exact simulates_unary hw (by rw [hlay.depth, hlen]) hd
  | .binary op left right _, _, c, _, _, exits, k, stack, h, hw, hlen, hfits => by
      obtain ⟨c₁, c₂, hl, hr, rfl⟩ := Emit.binary_inv h
      have hlayl := Emit.expr_lays left hl
      have hlayr := Emit.expr_lays right hr
      have hw₂ : R.Within c₂ := hw.of_grows (Grows.one _ _ _)
      have hw₁ : R.Within c₁ := hw₂.of_grows hlayr.grows
      rw [Eval.expr]
      refine (expr_simulates left hl hw₁ hlen hfits).bind fun x => .of_yields fun a ha => ?_
      have hlen₁ : (a :: stack).length = c₁.depth := by
        rw [hlayl.depth, ← hlen]
        rfl
      have hfits₁ := hfits.mono (Nat.le_refl k) (List.suffix_cons a stack)
      refine (expr_simulates right hr hw₂ hlen₁ hfits₁).bind fun y => .of_yields fun b hb => ?_
      exact simulates_binary hw (by rw [hlayr.depth, hlayl.depth, hlen]) ha hb
  | .block stmts _, _, c, _, _, exits, k, stack, h, hw, hlen, hfits => by
      rw [Eval.expr, inBlock_slotted]
      exact body_simulates stmts h hw hlen hfits
  | .choice cond stmts others _, _, c, _, _, exits, k, stack, h, hw, hlen, hfits => by
      obtain ⟨c₁, c₂, c₃, hc, hb, ho, rfl⟩ := Emit.choice_inv h
      have hlayc := Emit.expr_lays cond hc
      have hlayb := Emit.body_lays stmts hb
      have hwo : R.Within (c₃.emitAt .label c.labels) := ⟨hw.code, hw.strings⟩
      have hwa := (hwo.of_grows (Grows.one _ _ _)).of_grows (Emit.branches_lays others ho rfl).grows
      have hw₂ : R.Within c₂ := hwa.of_grows ((Grows.refl c₂).closeArm _ _ _)
      have hw₁ : R.Within c₁ := (hw₂.of_grows hlayb.grows).of_grows (Grows.one _ _ _)
      have hlen₁ : stack.length + 1 = c₁.depth := by
        rw [hlayc.depth, hlen]
        rfl
      have hlenb : stack.length = (c₁.emitAt .jumpFalse (c.labels + 1)).depth := by
        rw [Context.depth_emitAt, ← hlen₁]
        rfl
      have hfits₁ := hfits.mono (Nat.le_succ k) (List.suffix_refl stack)
      rw [Eval.expr, inBlock_slotted, Context.size_withDepth, Context.size_emitAt]
      refine (expr_simulates cond hc hw₁ hlen hfits).bind fun d => ?_
      exact arm_simulates hwa hlayb hlen₁ hwo.target (body_simulates stmts hb hw₂ hlenb hfits₁)
        (branches_simulates others ho hwo hlen rfl hfits₁)
  | .loop cond stmts _, _, c, _, _, exits, k, stack, h, hw, hlen, hfits => by
      obtain ⟨c₁, c₂, hc, hb, rfl⟩ := Emit.loop_inv h
      have hlayc := Emit.expr_lays cond hc
      have hlayb := Emit.body_lays stmts hb
      have hw₂ : R.Within c₂ := hw.of_grows ((Grows.refl c₂).closeLoop _ _)
      have hw₁ : R.Within c₁ := (hw₂.of_grows hlayb.grows).of_grows (Grows.one _ _ _)
      have hlenb : stack.length = (c₁.emitAt .jumpFalse (c.labels + 1)).depth := by
        rw [Context.depth_emitAt, hlayc.depth, hlen]
        rfl
      rw [Eval.expr, inBlock_slotted]
      refine loop_simulates hw hlen hlayc hlayb (fun j hj => ?_) fun j exits' hfits' => ?_
      · have hrun := expr_simulates cond hc hw₁ hlen (hfits.mono hj (List.suffix_refl stack))
        rwa [Context.size_emitAt] at hrun
      · have hrun := body_simulates stmts hb hw₂ hlenb hfits'
        rwa [Context.size_emitAt] at hrun

/-- The code of the later branches ends behind the label at the end of the choice. -/
theorem branches_simulates : ∀ (b : Branches .resolved) {frame : Option LoopFrame} {base finish : Nat}
    {c c' : Context} {u : Unit} {exits : Exits} {k : Nat} {stack : List Value},
      Emit.branches frame base finish b c = .ok (u, c') → R.Within (c'.emitAt .label finish) →
        stack.length = c.depth → c.depth = base → R.Fits exits k stack frame →
          R.Simulates exits (R.At k c.code.size stack) (Eval.branches .slotted R.rounds b)
            (R.Yields k (c'.code.size + 1) stack)
  | .done, _, _, _, c, _, _, _, k, stack, h, hw, hlen, _, _ => by
      cases h
      have hwu : R.Within (c.emit .pushUnit 0) := hw.of_grows (Grows.one _ _ _)
      have hlen₁ : stack.length + 1 = (c.emit .pushUnit 0).depth := by
        rw [Context.depth_emit, hlen]
        rfl
      refine .before (takes_pushUnit hwu hlen) (.before (takes_label_yields hw hlen₁) ?_)
      exact .pure fun _ _ _ hy => hy.mono (Nat.le_succ k)
  | .otherwise stmts, _, _, _, c, c', _, _, k, stack, h, hw, hlen, _, hfits => by
      have hlen₁ : stack.length + 1 = c'.depth := by rw [(Emit.body_lays stmts h).depth, hlen]
      rw [Eval.branches, inBlock_slotted]
      exact (body_simulates stmts h (hw.of_grows (Grows.one _ _ _)) hlen hfits).after fun d =>
        takes_label_yields hw hlen₁
  | .orIf cond stmts others, _, base, finish, c, c', _, _, k, stack, h, hw, hlen, hbase, hfits => by
      obtain ⟨c₁, c₂, hc, hb, ho⟩ := Emit.orIf_inv h
      have hlayc := Emit.expr_lays cond hc
      have hlayb := Emit.body_lays stmts hb
      have hwa := (hw.of_grows (Grows.one _ _ _)).of_grows (Emit.branches_lays others ho rfl).grows
      have hw₂ : R.Within c₂ := hwa.of_grows ((Grows.refl c₂).closeArm _ _ _)
      have hw₁ : R.Within c₁ := (hw₂.of_grows hlayb.grows).of_grows (Grows.one _ _ _)
      have hlen₁ : stack.length + 1 = c₁.depth := by
        rw [hlayc.depth, hlen]
        rfl
      have hlenb : stack.length = (c₁.emitAt .jumpFalse c.labels).depth := by
        rw [Context.depth_emitAt, ← hlen₁]
        rfl
      have hfits₁ := hfits.mono (Nat.le_succ k) (List.suffix_refl stack)
      rw [Eval.branches, inBlock_slotted]
      refine (expr_simulates cond hc hw₁ hlen hfits).bind fun d => ?_
      exact arm_simulates hwa hlayb hlen₁ hw.target (body_simulates stmts hb hw₂ hlenb hfits₁)
        (branches_simulates others ho hw (hlen.trans hbase) rfl hfits₁)

theorem body_simulates : ∀ (stmts : List (Stmt .resolved)) {frame : Option LoopFrame} {c c' : Context}
    {u : Unit} {exits : Exits} {k : Nat} {stack : List Value}, Emit.body frame stmts c = .ok (u, c') →
      R.Within c' → stack.length = c.depth → R.Fits exits k stack frame →
        R.Simulates exits (R.At k c.code.size stack) (Eval.stmts .slotted R.rounds stmts)
          (R.Yields k c'.code.size stack)
  | [], _, _, _, _, _, k, _, h, hw, hlen, _ => by
      cases h
      exact .before (takes_pushUnit hw hlen) (.pure fun _ _ _ hy => hy.mono (Nat.le_succ k))
  | [s], _, _, _, _, _, _, _, h, hw, hlen, hfits => by
      rw [Eval.stmts]
      exact (stmt_simulates s (Emit.body_one_inv h) hw hlen hfits).bind fun d => .pure fun _ _ _ hy => hy
  | s :: next :: rest, _, _, _, _, _, k, stack, h, hw, hlen, hfits => by
      obtain ⟨c₁, hs, hr⟩ := Emit.body_cons_inv h
      have hlays := Emit.stmt_lays s hs
      have hwp : R.Within (c₁.emit .pop 0) := hw.of_grows (Emit.body_lays (next :: rest) hr).grows
      have hw₁ : R.Within c₁ := hwp.of_grows (Grows.one _ _ _)
      have hlen₁ : stack.length + 1 = c₁.depth := by rw [hlays.depth, hlen]
      have hlenr : stack.length = (c₁.emit .pop 0).depth := by
        rw [Context.depth_emit, ← hlen₁]
        rfl
      rw [Eval.stmts]
      refine (stmt_simulates s hs hw₁ hlen hfits).bind fun d => .of_yields fun v _ => ?_
      refine .before ((takes_pop hwp hlen₁).mono fun _ _ _ hat => hat.mono (Nat.le_succ k)) ?_
      exact body_simulates (next :: rest) hr hw hlenr hfits

/-- The code of a statement simulates it; `break` and `continue` go where the loop says. -/
theorem stmt_simulates : ∀ (s : Stmt .resolved) {frame : Option LoopFrame} {c c' : Context} {u : Unit}
    {exits : Exits} {k : Nat} {stack : List Value}, Emit.stmt frame s c = .ok (u, c') →
      R.Within c' → stack.length = c.depth → R.Fits exits k stack frame →
        R.Simulates exits (R.At k c.code.size stack) (Eval.stmt .slotted R.rounds s)
          (R.Yields k c'.code.size stack)
  | .declare _ slot init _, _, c, _, _, exits, k, stack, h, hw, hlen, hfits => by
      obtain ⟨c₁, hi, rfl⟩ := Emit.declare_inv h
      have hlay := Emit.expr_lays init hi
      have hwd : R.Within (c₁.emitAt .declare slot) := hw.of_grows (Grows.one _ _ _)
      have hw₁ : R.Within c₁ := hwd.of_grows (Grows.one _ _ _)
      have hlen₁ : stack.length + 1 = c₁.depth := by rw [hlay.depth, hlen]
      rw [Eval.stmt]
      refine (expr_simulates init hi hw₁ hlen hfits).bind fun d => .of_yields fun v hd => ?_
      refine (simulates_declare hwd hlen₁ hd).bind fun _ => ?_
      refine .before (takes_pushUnit hw ?_) (.pure fun _ _ _ hy => hy.mono (Nat.le_succ k))
      rw [Context.depth_emitAt, ← hlen₁]
      rfl
  | .write newline value _ _, _, c, _, _, exits, k, stack, h, hw, hlen, hfits => by
      obtain ⟨c₁, hv, rfl⟩ := Emit.write_inv h
      have hlay := Emit.expr_lays value hv
      have hww : R.Within (c₁.emit (if newline then .writeln else .write) 0) :=
        hw.of_grows (Grows.one _ _ _)
      have hw₁ : R.Within c₁ := hww.of_grows (Grows.one _ _ _)
      have hlen₁ : stack.length + 1 = c₁.depth := by rw [hlay.depth, hlen]
      rw [Eval.stmt]
      refine (expr_simulates value hv hw₁ hlen hfits).bind fun d => .of_yields fun v hd => ?_
      refine (simulates_write hww hlen₁ hd).bind fun _ => ?_
      refine .before (takes_pushUnit hw ?_) (.pure fun _ _ _ hy => hy.mono (Nat.le_succ k))
      rw [Context.depth_emit, ← hlen₁]
      cases newline <;> rfl
  | .leave _, _, c, _, _, exits, k, stack, h, hw, hlen, hfits => by
      obtain ⟨f, rfl, rfl⟩ := Emit.leave_inv h
      obtain ⟨below, pos, _, hsuffix, hbelow, ht, -, hexit, -⟩ := hfits
      exact simulates_jumpedOut hw hlen hsuffix hbelow ht fun n w s hv hat => ⟨n, s, hv, hexit n w s hat⟩
  | .again _, _, c, _, _, exits, k, stack, h, hw, hlen, hfits => by
      obtain ⟨f, rfl, rfl⟩ := Emit.again_inv h
      obtain ⟨below, _, pos, hsuffix, hbelow, -, ht, -, hexit⟩ := hfits
      exact simulates_jumpedOut hw hlen hsuffix hbelow ht fun n w s hv hat => ⟨n, s, hv, hexit n w s hat⟩
  | .expr value _, _, _, _, _, _, _, _, h, hw, hlen, hfits => expr_simulates value h hw hlen hfits

end

/-- The code of a program simulates it from an empty stack to an empty stack. -/
theorem program_simulates : ∀ (program : Body .resolved) {c c' : Context} {u : Unit} {exits : Exits},
    Emit.program program c = .ok (u, c') → R.Within c' → c.depth = 0 →
      R.Simulates exits (R.At 0 c.code.size []) (Eval.stmts .slotted R.rounds program) fun _ =>
        R.At 0 c'.code.size []
  | [], _, _, _, _, h, _, _ => by
      cases h
      exact .pure fun _ _ _ hat => hat
  | s :: rest, c, c', _, exits, h, hw, hdepth => by
      obtain ⟨c₁, hs, hr⟩ := Emit.program_cons_inv h
      have hlays := Emit.stmt_lays s hs
      have hwp : R.Within (c₁.emit .pop 0) := hw.of_grows (Emit.program_lays rest hr).1
      have hw₁ : R.Within c₁ := hwp.of_grows (Grows.one _ _ _)
      have hlen : ([] : List Value).length = c.depth := hdepth.symm
      have hlen₁ : ([] : List Value).length + 1 = c₁.depth := by rw [hlays.depth, hlen]
      have hdepth₁ : (c₁.emit .pop 0).depth = 0 := by
        rw [Context.depth_emit, ← hlen₁]
        rfl
      rw [Eval.stmts]
      refine (stmt_simulates s hs hw₁ hlen trivial).bind fun d => .of_yields fun v _ => ?_
      refine .before ((takes_pop hwp hlen₁).mono fun _ _ _ hat => hat.mono (Nat.le_succ 0)) ?_
      have hrest : R.Simulates exits _ _ _ := program_simulates rest hr hw hdepth₁
      cases rest with
      | nil =>
          cases hr
          exact .pure fun _ _ _ hat => hat
      | cons next rest => exact hrest

end Run

end BlockLang.Plain

import BlockLang.Bytecode.Emit
import BlockLang.Proofs.Meaning
import BlockLang.Proofs.Plain

/-! What the values of the machine stand for. A string constant and a string that was made at run time
stand for their content, every other value for itself. The operations of the machine compute the
operators of the language: arithmetic on 64-bit integers is that of mathematics, cut to 64 bits. -/

namespace BlockLang

theorem ofInt_tdiv (a b : Int64) : Int64.ofInt (a.toInt.tdiv b.toInt) = a / b := by
  rw [← Int64.toInt_inj, Int64.toInt_div, Int64.toInt_ofInt]

theorem ofInt_tmod (a b : Int64) : Int64.ofInt (a.toInt.tmod b.toInt) = a % b := by
  rw [← Int64.toInt_mod, Int64.ofInt_toInt]

theorem toInt_eq_zero {b : Int64} : b.toInt = 0 ↔ b = 0 := Int64.toInt_inj (y := 0)

theorem decide_eq_beq {α : Type} [DecidableEq α] [BEq α] [LawfulBEq α] (x y : α) :
    decide (x = y) = (x == y) := by
  rw [Bool.eq_iff_iff, decide_eq_true_iff, beq_iff_eq]

namespace Plain

/-- What a value stands for; a constant that the program lacks stands for nothing. -/
def Value.datum? (p : Program) : Value → Option Datum
  | unit => some .unit
  | int n => some (.int n)
  | bool b => some (.bool b)
  | const index => (p.constant? index).map .string
  | text s => some (.string s)

variable {p : Program} {m : Machine}

namespace Value

variable {v : Value}

theorem eq_unit (h : v.datum? p = some .unit) : v = .unit := by
  cases v with
  | unit => rfl
  | const index =>
      obtain ⟨s, -, h⟩ := Option.map_eq_some_iff.mp h
      cases h
  | _ => cases h

theorem eq_int {n : Int64} (h : v.datum? p = some (.int n)) : v = .int n := by
  cases v with
  | int n' =>
      cases h
      rfl
  | const index =>
      obtain ⟨s, -, h⟩ := Option.map_eq_some_iff.mp h
      cases h
  | _ => cases h

theorem eq_bool {b : Bool} (h : v.datum? p = some (.bool b)) : v = .bool b := by
  cases v with
  | bool b' =>
      cases h
      rfl
  | const index =>
      obtain ⟨s, -, h⟩ := Option.map_eq_some_iff.mp h
      cases h
  | _ => cases h

theorem string?_of_datum? {s : String} (h : v.datum? p = some (.string s)) :
    v.string? p = some s := by
  cases v with
  | const index =>
      obtain ⟨s', hs, h⟩ := Option.map_eq_some_iff.mp h
      cases h
      exact hs
  | text s' =>
      cases h
      rfl
  | _ => cases h

theorem shown?_of_datum? {d : Datum} (h : v.datum? p = some d) : v.shown? p = some d.shown := by
  cases v with
  | const index =>
      obtain ⟨s, hs, rfl⟩ := Option.map_eq_some_iff.mp h
      exact hs
  | _ =>
      cases h
      rfl

theorem datum?_stringified {d : Datum} (h : v.datum? p = some d) :
    v.stringified.datum? p = some (.string d.stringified) := by
  cases v with
  | const index =>
      obtain ⟨s, hs, rfl⟩ := Option.map_eq_some_iff.mp h
      exact h
  | _ =>
      cases h
      rfl

end Value

section Operators

variable {a b v : Value} {rest : List Value}

/-- An operation that takes a stack to another one. -/
def Turns (m : Machine) (op : Op) (stack stack' : List Value) : Prop :=
  ∀ s : State, s.stack = stack → perform m s op 0 = nextWith s stack'

/-- The instruction for an operator with one operand does what the operator means. -/
theorem unary_turns {op : UnaryOp} {d r : Datum} (hv : v.datum? m.program = some d)
    (h : op.apply d = some r) :
    ∃ v', v'.datum? m.program = some r ∧ Turns m (Emit.unaryOp op) (v :: rest) (v' :: rest) := by
  cases op with
  | negate =>
      cases d with
      | int n =>
          obtain rfl := Value.eq_int hv
          cases h
          refine ⟨.int (-n), by simp [Value.datum?], fun s hs => ?_⟩
          show onInt s.stack _ = _
          rw [hs]
          rfl
      | _ => cases h
  | not =>
      cases d with
      | bool b =>
          obtain rfl := Value.eq_bool hv
          cases h
          refine ⟨.bool (!b), rfl, fun s hs => ?_⟩
          show onBool s.stack _ = _
          rw [hs]
          rfl
      | _ => cases h
  | stringify =>
      have hr : r = .string d.stringified := by cases d <;> cases h <;> rfl
      subst hr
      refine ⟨v.stringified, Value.datum?_stringified hv, fun s hs => ?_⟩
      show onTop s.stack _ = _
      rw [hs]
      rfl

/-- An operation that fails on a stack, and prints nothing. -/
def Fails (m : Machine) (op : Op) (stack : List Value) (cause : RuntimeCause) : Prop :=
  ∀ s : State, s.stack = stack →
    ∃ t, perform m s op 0 = some (some ⟨s.ip, cause⟩, t) ∧ t.output = s.output

/-- What an operation does on a stack, from the result of its operator. -/
def Computes (m : Machine) (op : Op) (stack rest : List Value) : Except RuntimeCause Datum → Prop
  | .ok d => ∃ v, v.datum? m.program = some d ∧ Turns m op stack (v :: rest)
  | .error cause => Fails m op stack cause

theorem onInts_computes {op : Op} {f : Int64 → Int64 → Value} {x y : Int64} {d : Datum}
    (hop : ∀ s, perform m s op 0 = onInts s.stack fun x y rest => nextWith s (f x y :: rest))
    (hd : (f x y).datum? m.program = some d) :
    Computes m op (.int y :: .int x :: rest) rest (.ok d) := by
  refine ⟨f x y, hd, fun s hs => ?_⟩
  rw [hop, hs]
  rfl

theorem onBools_computes {op : Op} {f : Bool → Bool → Value} {x y : Bool} {d : Datum}
    (hop : ∀ s, perform m s op 0 = onBools s.stack fun x y rest => nextWith s (f x y :: rest))
    (hd : (f x y).datum? m.program = some d) :
    Computes m op (.bool y :: .bool x :: rest) rest (.ok d) := by
  refine ⟨f x y, hd, fun s hs => ?_⟩
  rw [hop, hs]
  rfl

theorem onTexts_computes {op : Op} {f : String → String → Value} {x y : String} {d : Datum}
    (ha : a.string? m.program = some x) (hb : b.string? m.program = some y)
    (hop : ∀ s, perform m s op 0 =
      onTexts s.stack m.program fun x y rest => nextWith s (f x y :: rest))
    (hd : (f x y).datum? m.program = some d) : Computes m op (b :: a :: rest) rest (.ok d) := by
  refine ⟨f x y, hd, fun s hs => ?_⟩
  rw [hop, hs]
  simp [onTexts, onTwo, onTop, ha, hb]

/-- Division and remainder fail at zero, and only there. -/
theorem divide_computes {op : Op} {x y : Int64} {f : Int64 → Int64 → Int64} {r : Int64}
    {cause : RuntimeCause} (hop : ∀ s, perform m s op 0 = divide s f cause) (hr : r = f x y) :
    Computes m op (.int y :: .int x :: rest) rest
      (if y.toInt = 0 then .error cause else .ok (.int r)) := by
  by_cases hy : y.toInt = 0
  · rw [if_pos hy]
    intro s hs
    refine ⟨s.withStack rest, ?_, rfl⟩
    rw [hop, divide, hs]
    exact if_pos (toInt_eq_zero.mp hy)
  · rw [if_neg hy, hr]
    refine ⟨.int (f x y), rfl, fun s hs => ?_⟩
    rw [hop, divide, hs]
    exact if_neg fun h => hy (toInt_eq_zero.mpr h)

theorem eq_computes {e : Bool} (h : a.equal? b = some e) :
    Computes m .eq (b :: a :: rest) rest (.ok (.bool e)) := by
  refine ⟨.bool (e == true), by simp [Value.datum?], fun s hs => ?_⟩
  simp [perform, hs, onTwo, onTop, h]

theorem ne_computes {e : Bool} (h : a.equal? b = some e) :
    Computes m .ne (b :: a :: rest) rest (.ok (.bool (!e))) := by
  refine ⟨.bool (e == false), by simp [Value.datum?], fun s hs => ?_⟩
  simp [perform, hs, onTwo, onTop, h]

/-- The instruction for an operator on integers computes its meaning on 64 bits. -/
theorem ints_compute {op : BinaryOp} {x y : Int64} {r : Except RuntimeCause Datum}
    (h : op.onInts x.toInt y.toInt = some r) :
    Computes m (Emit.binaryOp op .int) (.int y :: .int x :: rest) rest r := by
  cases op with
  | or | and => cases h
  | eq =>
      cases h
      rw [decide_eq_decide.mpr Int64.toInt_inj, decide_eq_beq]
      exact eq_computes rfl
  | neq =>
      cases h
      rw [decide_not, decide_eq_decide.mpr Int64.toInt_inj, decide_eq_beq]
      exact ne_computes rfl
  | div =>
      cases h
      exact divide_computes (fun _ => rfl) (ofInt_tdiv x y)
  | rem =>
      cases h
      exact divide_computes (fun _ => rfl) (ofInt_tmod x y)
  | lt | lte | gt | gte =>
      cases h
      exact onInts_computes (fun _ => rfl)
        (by simp [Value.datum?, Int64.lt_iff_toInt_lt, Int64.le_iff_toInt_le])
  | add | sub | mul =>
      cases h
      exact onInts_computes (fun _ => rfl) (by simp [Value.datum?])

/-- The instruction for an operator on truth values computes its meaning. -/
theorem bools_compute {op : BinaryOp} {x y : Bool} {r : Except RuntimeCause Datum}
    (h : op.onBools x y = some r) :
    Computes m (Emit.binaryOp op .bool) (.bool y :: .bool x :: rest) rest r := by
  cases op with
  | or | and =>
      cases h
      exact onBools_computes (fun _ => rfl) rfl
  | eq =>
      cases h
      rw [decide_eq_beq]
      exact eq_computes rfl
  | neq =>
      cases h
      rw [decide_not, decide_eq_beq]
      exact ne_computes rfl
  | _ => cases h

theorem strings_compute {op : BinaryOp} {x y : String} {r : Except RuntimeCause Datum}
    (ha : a.string? m.program = some x) (hb : b.string? m.program = some y)
    (h : op.onStrings x y = some r) :
    Computes m (Emit.binaryOp op .string) (b :: a :: rest) rest r := by
  cases op with
  | eq | neq =>
      cases h
      exact onTexts_computes ha hb (fun _ => rfl) (by simp [Value.datum?, decide_eq_beq, bne])
  | add =>
      cases h
      exact onTexts_computes ha hb (fun _ => rfl) rfl
  | _ => cases h

theorem units_compute {op : BinaryOp} {r : Except RuntimeCause Datum} (h : op.onUnits = some r) :
    Computes m (Emit.binaryOp op .unit) (.unit :: .unit :: rest) rest r := by
  cases op with
  | eq =>
      cases h
      exact eq_computes rfl
  | neq =>
      cases h
      exact ne_computes (rfl : Value.unit.equal? .unit = some true)
  | _ => cases h

/-- The operation of an operator computes it. -/
theorem binary_computes {op : BinaryOp} {left : Ty} {x y : Datum} {r : Except RuntimeCause Datum}
    (ha : a.datum? m.program = some x) (hb : b.datum? m.program = some y)
    (h : op.apply left x y = some r) :
    Computes m (Emit.binaryOp op left) (b :: a :: rest) rest r := by
  match left, x, y, ha, hb, h with
  | .int, .int i, .int j, ha, hb, h =>
      obtain rfl := Value.eq_int ha
      obtain rfl := Value.eq_int hb
      exact ints_compute h
  | .bool, .bool i, .bool j, ha, hb, h =>
      obtain rfl := Value.eq_bool ha
      obtain rfl := Value.eq_bool hb
      exact bools_compute h
  | .string, .string i, .string j, ha, hb, h =>
      exact strings_compute (Value.string?_of_datum? ha) (Value.string?_of_datum? hb) h
  | .unit, .unit, .unit, ha, hb, h =>
      obtain rfl := Value.eq_unit ha
      obtain rfl := Value.eq_unit hb
      exact units_compute h

end Operators

end Plain

end BlockLang

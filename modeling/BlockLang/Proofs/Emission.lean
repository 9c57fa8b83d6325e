import BlockLang.Bytecode.Emit
import BlockLang.Proofs.Scoping

/-! What code generation does to its context. Every piece of it that cannot fail is a function of the
context, and the code of a node is the code of its children with a few instructions in between; the
lemmas here say so once for every kind of node. -/

namespace BlockLang

namespace Context

/-- The context behind another instruction. -/
def emit (c : Context) (op : Op) (arg : Int64) : Context :=
  { c with
    code := c.code.push ⟨Instr.of op arg, c.depth⟩
    depth := c.depth + op.pushes - op.pops }

/-- The context behind another instruction whose argument is a slot, a label or the number of a
string. -/
def emitAt (c : Context) (op : Op) (index : Nat) : Context := c.emit op (Int64.ofNat index)

/-- The context with more labels in use. -/
def withLabels (c : Context) (n : Nat) : Context := { c with labels := c.labels + n }

def withDepth (c : Context) (depth : Nat) : Context := { c with depth }

/-- The context behind a number of instructions that drop a value each. -/
def dropped (c : Context) : Nat → Context
  | 0 => c
  | n + 1 => (c.emit .pop 0).dropped n

/-- The context behind a jump out of a loop's body. -/
def jumpedOut (c : Context) (frame : LoopFrame) (label : Nat) : Context :=
  ((c.dropped (c.depth - frame.depth)).emitAt .jump label).withDepth (c.depth + 1)

/-- The context behind an arm of a choice, from the context behind its body. -/
def closeArm (c : Context) (finish next base : Nat) : Context :=
  ((c.emitAt .jump finish).emitAt .label next).withDepth base

/-- The frame of a loop that begins here. -/
def loopFrame (c : Context) : LoopFrame := ⟨c.labels + 1, c.labels, c.depth⟩

/-- The context with one more finished loop. -/
def withLoop (c : Context) (frame : LoopFrame) (first : Nat) : Context :=
  { c with loops := c.loops.push ⟨frame, first, c.code.size⟩ }

/-- The context behind a loop, from the context behind its body. -/
def closeLoop (c : Context) (frame : LoopFrame) (first : Nat) : Context :=
  let c := ((c.emit .pop 0).emitAt .jump frame.again).withLoop frame first
  ((c.emitAt .label frame.leave).withDepth frame.depth).emit .pushUnit 0

end Context

namespace Emit

open Sequence

section Pieces

variable {α : Type} (c : Context) (f : Unit → Emit α) (g : Nat → Emit α)

theorem emitAt_bind (op : Op) (n : Nat) : (emitAt op n >>= f) c = f () (c.emitAt op n) := rfl

theorem setDepth_bind (d : Nat) : (setDepth d >>= f) c = f () (c.withDepth d) := rfl

theorem newLabel_bind : (newLabel >>= g) c = g c.labels (c.withLabels 1) := rfl

theorem depth_bind : (depth >>= g) c = g c.depth c := rfl

theorem place_bind : (place >>= g) c = g c.code.size c := rfl

theorem drop_apply (n : Nat) : drop n c = .ok ((), c.dropped n) := by
  induction n generalizing c with
  | zero => rfl
  | succ n ih => exact ih _

theorem jumpOut_apply (frame : LoopFrame) (label : Nat) :
    jumpOut frame label c = .ok ((), c.jumpedOut frame label) := by
  rw [jumpOut, depth_bind]
  exact bind_ok.mpr ⟨(), _, drop_apply c _, rfl⟩

theorem getElem?_of_idxOf? {xs : Array String} {x : String} {i : Nat}
    (h : xs.idxOf? x = some i) : xs[i]? = some x := by
  rcases xs with ⟨l⟩
  rw [List.idxOf?_toArray] at h
  obtain ⟨hi, heq, -⟩ := List.idxOf?_eq_some_iff.mp h
  rw [List.getElem?_toArray, List.getElem?_eq_getElem hi, heq]

/-- The number of a string is where it stands in a table to which it has been added if it was new. -/
theorem constant_cases (value : String) :
    ∃ index strings, constant value c = .ok (index, { c with strings }) ∧
      strings[index]? = some value ∧
      (strings = c.strings ∨ value ∉ c.strings ∧ strings = c.strings.push value) := by
  cases hi : c.strings.idxOf? value with
  | some index =>
      have hconst : constant value c = .ok (index, c) := by
        simp only [constant, modifyGet, MonadStateOf.modifyGet, StateT.modifyGet, hi]
        rfl
      exact ⟨index, c.strings, hconst, getElem?_of_idxOf? hi, .inl rfl⟩
  | none =>
      have hconst : constant value c =
          .ok (c.strings.size, { c with strings := c.strings.push value }) := by
        simp only [constant, modifyGet, MonadStateOf.modifyGet, StateT.modifyGet, hi]
        rfl
      have hnew : value ∉ c.strings := by
        rcases hstrings : c.strings with ⟨l⟩
        rw [hstrings, List.idxOf?_toArray] at hi
        simpa using hi
      exact ⟨c.strings.size, c.strings.push value, hconst, Array.getElem?_push_size, .inr ⟨hnew, rfl⟩⟩

theorem constant_apply (value : String) :
    ∃ index strings, constant value c = .ok (index, { c with strings }) ∧
      strings[index]? = some value ∧ c.strings.toList <+: strings.toList ∧
      strings.size ≤ c.strings.size + 1 := by
  obtain ⟨index, strings, hconst, hat, rfl | ⟨-, rfl⟩⟩ := constant_cases c value
  · exact ⟨index, c.strings, hconst, hat, List.prefix_refl _, Nat.le_succ _⟩
  · refine ⟨index, c.strings.push value, hconst, hat, ?_, Nat.le_of_eq (Array.size_push _)⟩
    rw [Array.toList_push]
    exact List.prefix_append _ _

end Pieces

section Nodes

variable {frame : Option LoopFrame} {c c' : Context} {u : Unit}

theorem string_inv {value : String} {t : Ty} (h : expr frame (.string value t) c = .ok (u, c')) :
    ∃ index strings, strings[index]? = some value ∧ c.strings.toList <+: strings.toList ∧
      strings.size ≤ c.strings.size + 1 ∧
      ({ c with strings } : Context).emitAt .pushString index = c' := by
  obtain ⟨index, strings, hconst, hat, hprefix, hsize⟩ := constant_apply c value
  obtain ⟨index', c₁, hc, h⟩ := bind_ok.mp h
  rw [hconst] at hc
  cases hc
  cases h
  exact ⟨index, strings, hat, hprefix, hsize, rfl⟩

theorem assign_inv {slot : Nat} {value : Expr .resolved} {t : Ty}
    (h : expr frame (.assign slot value t) c = .ok (u, c')) :
    ∃ c₁, expr frame value c = .ok ((), c₁) ∧ c₁.emitAt .assign slot = c' := by
  obtain ⟨_, c₁, hv, h⟩ := bind_ok.mp h
  cases h
  exact ⟨c₁, hv, rfl⟩

theorem unary_inv {op : UnaryOp} {operand : Expr .resolved} {t : Ty}
    (h : expr frame (.unary op operand t) c = .ok (u, c')) :
    ∃ c₁, expr frame operand c = .ok ((), c₁) ∧ c₁.emit (unaryOp op) 0 = c' := by
  obtain ⟨_, c₁, hv, h⟩ := bind_ok.mp h
  cases h
  exact ⟨c₁, hv, rfl⟩

theorem binary_inv {op : BinaryOp} {left right : Expr .resolved} {t : Ty}
    (h : expr frame (.binary op left right t) c = .ok (u, c')) :
    ∃ c₁ c₂, expr frame left c = .ok ((), c₁) ∧ expr frame right c₁ = .ok ((), c₂) ∧
      c₂.emit (binaryOp op left.tag) 0 = c' := by
  obtain ⟨_, c₁, hl, h⟩ := bind_ok.mp h
  obtain ⟨_, c₂, hr, h⟩ := bind_ok.mp h
  cases h
  exact ⟨c₁, c₂, hl, hr, rfl⟩

/-- The code of a choice: two labels, the condition, the first body, and the other branches in front of the end. -/
theorem choice_inv {cond : Expr .resolved} {stmts : Body .resolved} {others : Branches .resolved}
    {t : Ty} (h : expr frame (.choice cond stmts others t) c = .ok (u, c')) :
    ∃ c₁ c₂ c₃, expr frame cond (c.withLabels 2) = .ok ((), c₁) ∧
      body frame stmts (c₁.emitAt .jumpFalse (c.labels + 1)) = .ok ((), c₂) ∧
      branches frame c.depth c.labels others (c₂.closeArm c.labels (c.labels + 1) c.depth) =
        .ok ((), c₃) ∧
      (c₃.emitAt .label c.labels).withDepth (c.depth + 1) = c' := by
  rw [expr, depth_bind, newLabel_bind, newLabel_bind] at h
  obtain ⟨_, c₁, hc, h⟩ := bind_ok.mp h
  rw [emitAt_bind] at h
  obtain ⟨_, c₂, hb, h⟩ := bind_ok.mp h
  rw [emitAt_bind, emitAt_bind, setDepth_bind] at h
  obtain ⟨_, c₃, ho, h⟩ := bind_ok.mp h
  cases h
  exact ⟨c₁, c₂, c₃, hc, hb, ho, rfl⟩

theorem loop_inv {cond : Expr .resolved} {stmts : Body .resolved} {t : Ty}
    (h : expr frame (.loop cond stmts t) c = .ok (u, c')) :
    ∃ c₁ c₂, expr frame cond ((c.withLabels 2).emitAt .label c.labels) = .ok ((), c₁) ∧
      body (some c.loopFrame) stmts (c₁.emitAt .jumpFalse (c.labels + 1)) = .ok ((), c₂) ∧
      c₂.closeLoop c.loopFrame c.code.size = c' := by
  rw [expr, newLabel_bind, newLabel_bind, depth_bind, place_bind, emitAt_bind] at h
  obtain ⟨_, c₁, hc, h⟩ := bind_ok.mp h
  rw [emitAt_bind] at h
  obtain ⟨_, c₂, hb, h⟩ := bind_ok.mp h
  cases h
  exact ⟨c₁, c₂, hc, hb, rfl⟩

theorem orIf_inv {base finish : Nat} {cond : Expr .resolved} {stmts : Body .resolved}
    {others : Branches .resolved}
    (h : branches frame base finish (.orIf cond stmts others) c = .ok (u, c')) :
    ∃ c₁ c₂, expr frame cond (c.withLabels 1) = .ok ((), c₁) ∧
      body frame stmts (c₁.emitAt .jumpFalse c.labels) = .ok ((), c₂) ∧
      branches frame base finish others (c₂.closeArm finish c.labels base) = .ok ((), c') := by
  rw [branches, newLabel_bind] at h
  obtain ⟨_, c₁, hc, h⟩ := bind_ok.mp h
  rw [emitAt_bind] at h
  obtain ⟨_, c₂, hb, h⟩ := bind_ok.mp h
  rw [emitAt_bind, emitAt_bind, setDepth_bind] at h
  exact ⟨c₁, c₂, hc, hb, h⟩

theorem body_one_inv {s : Stmt .resolved} (h : body frame [s] c = .ok (u, c')) :
    stmt frame s c = .ok ((), c') := by
  obtain ⟨_, c₁, hs, h⟩ := bind_ok.mp h
  cases h
  exact hs

theorem body_cons_inv {s next : Stmt .resolved} {rest : Body .resolved}
    (h : body frame (s :: next :: rest) c = .ok (u, c')) :
    ∃ c₁, stmt frame s c = .ok ((), c₁) ∧
      body frame (next :: rest) (c₁.emit .pop 0) = .ok ((), c') := by
  obtain ⟨_, c₁, hs, h⟩ := bind_ok.mp h
  exact ⟨c₁, hs, h⟩

theorem declare_inv {type : Ty} {slot : Nat} {init : Expr .resolved} {m : Ty}
    (h : stmt frame (.declare type slot init m) c = .ok (u, c')) :
    ∃ c₁, expr frame init c = .ok ((), c₁) ∧
      (c₁.emitAt .declare slot).emit .pushUnit 0 = c' := by
  obtain ⟨_, c₁, hi, h⟩ := bind_ok.mp h
  cases h
  exact ⟨c₁, hi, rfl⟩

theorem write_inv {newline : Bool} {value : Expr .resolved} {shown m : Ty}
    (h : stmt frame (.write newline value shown m) c = .ok (u, c')) :
    ∃ c₁, expr frame value c = .ok ((), c₁) ∧
      (c₁.emit (if newline then .writeln else .write) 0).emit .pushUnit 0 = c' := by
  obtain ⟨_, c₁, hv, h⟩ := bind_ok.mp h
  cases h
  exact ⟨c₁, hv, rfl⟩

theorem leave_inv {m : Ty} (h : stmt frame (.leave m) c = .ok (u, c')) :
    ∃ f, frame = some f ∧ c.jumpedOut f f.leave = c' := by
  cases frame with
  | none => cases h
  | some f =>
      rw [stmt, jumpOut_apply] at h
      cases h
      exact ⟨f, rfl, rfl⟩

theorem again_inv {m : Ty} (h : stmt frame (.again m) c = .ok (u, c')) :
    ∃ f, frame = some f ∧ c.jumpedOut f f.again = c' := by
  cases frame with
  | none => cases h
  | some f =>
      rw [stmt, jumpOut_apply] at h
      cases h
      exact ⟨f, rfl, rfl⟩

theorem program_cons_inv {s : Stmt .resolved} {rest : Body .resolved}
    (h : program (s :: rest) c = .ok (u, c')) :
    ∃ c₁, stmt none s c = .ok ((), c₁) ∧ program rest (c₁.emit .pop 0) = .ok ((), c') := by
  obtain ⟨_, c₁, hs, h⟩ := bind_ok.mp h
  exact ⟨c₁, hs, h⟩

end Nodes

/-- A step of the generation that never fails. -/
def Total {α : Type} (x : Emit α) : Prop := ∀ c, ∃ r, x c = .ok r

section Success

variable {α β : Type} {x : Emit α} {f : α → Emit β}

theorem Total.bind (hx : Total x) (hf : ∀ a, Total (f a)) : Total (x >>= f) := by
  intro c
  obtain ⟨⟨a, c₁⟩, hx⟩ := hx c
  obtain ⟨r, hf⟩ := hf a c₁
  exact ⟨r, bind_ok.mpr ⟨a, c₁, hx, hf⟩⟩

theorem emit_total (op : Op) (arg : Int64) : Total (emit op arg) := fun _ => ⟨_, rfl⟩

theorem emitAt_total (op : Op) (n : Nat) : Total (emitAt op n) := fun _ => ⟨_, rfl⟩

theorem newLabel_total : Total newLabel := fun _ => ⟨_, rfl⟩

theorem setDepth_total (d : Nat) : Total (setDepth d) := fun _ => ⟨_, rfl⟩

theorem depth_total : Total depth := fun _ => ⟨_, rfl⟩

theorem jumpOut_total (f : LoopFrame) (label : Nat) : Total (jumpOut f label) :=
  fun c => ⟨_, jumpOut_apply c f label⟩

mutual

/-- Code is generated for every expression whose `break` and `continue` are in loops. -/
theorem expr_total : ∀ (e : Expr .resolved) {frame : Option LoopFrame},
    e.Enclosed frame.isSome → Total (expr frame e)
  | .int _ _, _, _ | .bool _ _, _, _ | .unit _, _, _ | .var _ _, _, _ => fun _ => ⟨_, rfl⟩
  | .string value _, _, _ => .bind (fun c => by
      obtain ⟨index, strings, h, -⟩ := constant_apply c value
      exact ⟨_, h⟩) fun _ => emitAt_total _ _
  | .assign _ value _, _, h => (expr_total value h).bind fun _ => emitAt_total _ _
  | .unary _ operand _, _, h => (expr_total operand h).bind fun _ => emit_total _ _
  | .binary _ left right _, _, h =>
      (expr_total left h.1).bind fun _ => (expr_total right h.2).bind fun _ => emit_total _ _
  | .block stmts _, _, h => body_total stmts h
  | .choice cond stmts others _, _, h =>
      depth_total.bind fun _ => newLabel_total.bind fun _ => newLabel_total.bind fun _ =>
        (expr_total cond h.1).bind fun _ => (emitAt_total _ _).bind fun _ =>
          (body_total stmts h.2.1).bind fun _ => (emitAt_total _ _).bind fun _ =>
            (emitAt_total _ _).bind fun _ => (setDepth_total _).bind fun _ =>
              (branches_total others h.2.2).bind fun _ => (emitAt_total _ _).bind fun _ =>
                setDepth_total _
  | .loop cond stmts _, _, h =>
      newLabel_total.bind fun _ => newLabel_total.bind fun _ => depth_total.bind fun _ =>
        .bind (fun _ => ⟨_, rfl⟩) fun _ => (emitAt_total _ _).bind fun _ =>
          (expr_total cond h.1).bind fun _ => (emitAt_total _ _).bind fun _ =>
            .bind (body_total stmts h.2) fun _ _ => ⟨_, rfl⟩

theorem branches_total : ∀ (b : Branches .resolved) {frame : Option LoopFrame} {base finish : Nat},
    b.Enclosed frame.isSome → Total (branches frame base finish b)
  | .done, _, _, _, _ => emit_total _ _
  | .otherwise stmts, _, _, _, h => body_total stmts h
  | .orIf cond stmts others, _, _, _, h =>
      newLabel_total.bind fun _ => (expr_total cond h.1).bind fun _ =>
        (emitAt_total _ _).bind fun _ => (body_total stmts h.2.1).bind fun _ =>
          (emitAt_total _ _).bind fun _ => (emitAt_total _ _).bind fun _ =>
            (setDepth_total _).bind fun _ => branches_total others h.2.2

theorem body_total : ∀ (stmts : List (Stmt .resolved)) {frame : Option LoopFrame},
    Body.Enclosed frame.isSome stmts → Total (body frame stmts)
  | [], _, _ => emit_total _ _
  | [s], _, h => (stmt_total s h.1).bind fun _ _ => ⟨_, rfl⟩
  | s :: next :: rest, _, h =>
      (stmt_total s h.1).bind fun _ => (emit_total _ _).bind fun _ => body_total (next :: rest) h.2

theorem stmt_total : ∀ (s : Stmt .resolved) {frame : Option LoopFrame},
    s.Enclosed frame.isSome → Total (stmt frame s)
  | .declare _ _ init _, _, h =>
      (expr_total init h).bind fun _ => (emitAt_total _ _).bind fun _ => emit_total _ _
  | .write _ value _ _, _, h =>
      (expr_total value h).bind fun _ => (emit_total _ _).bind fun _ => emit_total _ _
  | .leave _, some f, _ => jumpOut_total f f.leave
  | .again _, some f, _ => jumpOut_total f f.again
  | .expr value _, _, h => expr_total value h

end

theorem program_total : ∀ (program : Body .resolved), Body.Enclosed false program →
    Total (Emit.program program)
  | [], _ => fun _ => ⟨_, rfl⟩
  | s :: rest, h =>
      .bind (stmt_total s h.1) fun _ => (emit_total _ _).bind fun _ => program_total rest h.2

end Success

end Emit

end BlockLang

import BlockLang.Proofs.Emission

/-! Where code generation puts things. The code of a node follows the code so far, nothing that has
been emitted or entered in a table changes, and the stack is one value higher behind it. Every label
that is taken is marked by exactly one instruction. There are no more labels, slots and strings than
instructions. -/

namespace BlockLang

theorem Op.code_of_ofCode? {b : UInt8} {op : Op} (h : ofCode? b = some op) : op.code = b := by
  unfold ofCode? at h
  split at h <;> cases h <;> exact UInt8.toNat.inj (Eq.symm (by assumption))

@[simp] theorem Instr.arg_of (op : Op) (arg : Int64) : (Instr.of op arg).arg = arg := rfl

theorem Instr.eq_of_op? {i : Instr} {op : Op} (h : i.op? = some op) : i = Instr.of op i.arg := by
  rw [Instr.of, Op.code_of_ofCode? h]

theorem Instr.of_inj {op op' : Op} {arg arg' : Int64} :
    Instr.of op arg = Instr.of op' arg' ↔ op = op' ∧ arg = arg' := by
  refine ⟨fun h => ⟨?_, congrArg Instr.arg h⟩, fun ⟨ho, ha⟩ => by rw [ho, ha]⟩
  have hop : (Instr.of op arg).op? = (Instr.of op' arg').op? := congrArg Instr.op? h
  rw [Instr.op?_of, Instr.op?_of] at hop
  exact Option.some.inj hop

namespace Context

/-- How often a label has been marked. -/
def marks (c : Context) (arg : Int64) : Nat :=
  (c.code.toList.map (·.instr)).count (Instr.of .label arg)

section Updates

variable (c : Context) (op : Op) (arg : Int64) (n : Nat) (frame : LoopFrame)

theorem toList_emit :
    (c.emit op arg).code.toList = c.code.toList ++ [⟨Instr.of op arg, c.depth⟩] :=
  Array.toList_push

theorem getElem?_emit :
    (c.emit op arg).code.toList[c.code.size]? = some ⟨Instr.of op arg, c.depth⟩ := by
  rw [toList_emit, List.getElem?_append_right (Nat.le_of_eq Array.length_toList),
    Array.length_toList, Nat.sub_self]
  rfl

@[simp] theorem labels_emit : (c.emit op arg).labels = c.labels := rfl

@[simp] theorem labels_emitAt : (c.emitAt op n).labels = c.labels := rfl

@[simp] theorem labels_withLabels : (c.withLabels n).labels = c.labels + n := rfl

@[simp] theorem labels_withDepth : (c.withDepth n).labels = c.labels := rfl

@[simp] theorem labels_closeArm (finish next base : Nat) :
    (c.closeArm finish next base).labels = c.labels := rfl

@[simp] theorem labels_closeLoop : (c.closeLoop frame n).labels = c.labels := rfl

@[simp] theorem depth_emit : (c.emit op arg).depth = c.depth + op.pushes - op.pops := rfl

@[simp] theorem depth_emitAt : (c.emitAt op n).depth = c.depth + op.pushes - op.pops := rfl

@[simp] theorem size_emit : (c.emit op arg).code.size = c.code.size + 1 := Array.size_push _

@[simp] theorem size_emitAt : (c.emitAt op n).code.size = c.code.size + 1 := Array.size_push _

@[simp] theorem size_withDepth : (c.withDepth n).code.size = c.code.size := rfl

@[simp] theorem size_withLoop : (c.withLoop frame n).code.size = c.code.size := rfl

@[simp] theorem labels_dropped : (c.dropped n).labels = c.labels := by
  induction n generalizing c with
  | zero => rfl
  | succ n ih => exact ih _

@[simp] theorem depth_dropped : (c.dropped n).depth = c.depth - n := by
  induction n generalizing c with
  | zero => rfl
  | succ n ih =>
      rw [dropped, ih]
      show c.depth + 0 - 1 - n = _
      omega

end Updates

end Context

/-- How often an argument stands for one of the labels from `lo` up to `hi`. -/
def allotted (lo hi : Nat) (arg : Int64) : Nat :=
  ((List.range' lo (hi - lo)).map Int64.ofNat).count arg

@[simp] theorem allotted_self (n : Nat) (arg : Int64) : allotted n n arg = 0 := by
  simp [allotted]

theorem allotted_split {lo mid hi : Nat} (h : lo ≤ mid) (h' : mid ≤ hi) (arg : Int64) :
    allotted lo hi arg = allotted lo mid arg + allotted mid hi arg := by
  obtain ⟨m, rfl⟩ := Nat.exists_eq_add_of_le h
  obtain ⟨n, rfl⟩ := Nat.exists_eq_add_of_le h'
  have hm : lo + m + n - lo = m + n := by omega
  rw [allotted, allotted, allotted, hm, Nat.add_sub_cancel_left, Nat.add_sub_cancel_left,
    ← List.range'_append_1, List.map_append, List.count_append]

theorem getElem?_of_prefix {α : Type} {xs ys : List α} {i : Nat} {x : α} (h : xs <+: ys)
    (hx : xs[i]? = some x) : ys[i]? = some x := by
  obtain ⟨zs, rfl⟩ := h
  rw [List.getElem?_append_left (List.getElem?_eq_some_iff.mp hx).1, hx]

/-- A context that has grown by at least a number of instructions, which mark some labels. -/
structure Grows (c c' : Context) (n : Nat) (marked : Int64 → Nat) : Prop where
  code : c.code.toList <+: c'.code.toList
  size : c.code.size + n ≤ c'.code.size
  strings : c.strings.toList <+: c'.strings.toList
  few : c'.strings.size + c.code.size ≤ c.strings.size + c'.code.size
  labels : c.labels ≤ c'.labels
  marks : ∀ arg, c'.marks arg = c.marks arg + marked arg

namespace Grows

variable {c c' c'' : Context} {m n : Nat} {f g : Int64 → Nat}

theorem refl (c : Context) : Grows c c 0 fun _ => 0 :=
  ⟨List.prefix_refl _, Nat.le_refl _, List.prefix_refl _, Nat.le_refl _, Nat.le_refl _, fun _ => rfl⟩

theorem trans (h : Grows c c' m f) (h' : Grows c' c'' n g) :
    Grows c c'' (m + n) fun arg => f arg + g arg := by
  have hsize := h.size
  have hsize' := h'.size
  have hfew := h.few
  have hfew' := h'.few
  refine ⟨h.code.trans h'.code, by omega, h.strings.trans h'.strings, by omega,
    Nat.le_trans h.labels h'.labels, fun arg => ?_⟩
  rw [h'.marks, h.marks, Nat.add_assoc]

theorem congr (h : Grows c c' m f) (hn : n ≤ m) (hf : ∀ arg, f arg = g arg) : Grows c c' n g := by
  have hsize := h.size
  exact ⟨h.code, by omega, h.strings, h.few, h.labels, fun arg => hf arg ▸ h.marks arg⟩

theorem emit_marks (c : Context) (op : Op) (arg arg' : Int64) :
    (c.emit op arg).marks arg' = c.marks arg' +
      if op = .label ∧ arg = arg' then 1 else 0 := by
  rw [Context.marks, Context.marks, Context.toList_emit, List.map_append, List.count_append, List.map_singleton,
    List.count_singleton]
  by_cases h : op = .label ∧ arg = arg'
  · simp [h]
  · simp [h, Instr.of_inj]

theorem one (c : Context) (op : Op) (arg : Int64) :
    Grows c (c.emit op arg) 1 fun arg' => if op = .label ∧ arg = arg' then 1 else 0 := by
  refine ⟨?_, ?_, List.prefix_refl _, ?_, Nat.le_refl _, emit_marks c op arg⟩
  · rw [Context.toList_emit]
    exact List.prefix_append _ _
  · exact Nat.le_of_eq (Context.size_emit c op arg).symm
  · rw [Context.size_emit]
    exact Nat.le_succ _

theorem emit (h : Grows c c' m f) {op : Op} (arg : Int64) (hop : op ≠ .label) :
    Grows c (c'.emit op arg) (m + 1) f :=
  (h.trans (one c' op arg)).congr (Nat.le_refl _) fun _ => by simp [hop]

theorem emitAt (h : Grows c c' m f) {op : Op} (index : Nat) (hop : op ≠ .label) :
    Grows c (c'.emitAt op index) (m + 1) f :=
  h.emit _ hop

theorem label (h : Grows c c' m f) (l : Nat) :
    Grows c (c'.emitAt .label l) (m + 1) fun arg => f arg + allotted l (l + 1) arg := by
  refine (h.trans (one c' .label (Int64.ofNat l))).congr (Nat.le_refl _) fun arg => ?_
  simp [allotted, List.count_singleton]

theorem withDepth (h : Grows c c' m f) (d : Nat) : Grows c (c'.withDepth d) m f :=
  ⟨h.code, h.size, h.strings, h.few, h.labels, h.marks⟩

theorem withLoop (h : Grows c c' m f) (frame : LoopFrame) (first : Nat) :
    Grows c (c'.withLoop frame first) m f :=
  ⟨h.code, h.size, h.strings, h.few, h.labels, h.marks⟩

theorem closeArm (h : Grows c c' m f) (finish next base : Nat) :
    Grows c (c'.closeArm finish next base) (m + 2) fun arg =>
      f arg + allotted next (next + 1) arg :=
  ((h.emitAt finish (by decide)).label next).withDepth base

theorem closeLoop (h : Grows c c' m f) (frame : LoopFrame) (first : Nat) :
    Grows c (c'.closeLoop frame first) (m + 4) fun arg =>
      f arg + allotted frame.leave (frame.leave + 1) arg :=
  (((((h.emit 0 (by decide)).emitAt frame.again (by decide)).withLoop frame first).label
    frame.leave).withDepth frame.depth).emit 0 (by decide)

theorem withLabels (c : Context) (n : Nat) : Grows c (c.withLabels n) 0 fun _ => 0 :=
  ⟨List.prefix_refl _, Nat.le_refl _, List.prefix_refl _, Nat.le_refl _, Nat.le_add_right _ _,
    fun _ => rfl⟩

theorem dropped (c : Context) (n : Nat) : Grows c (c.dropped n) 0 fun _ => 0 := by
  induction n generalizing c with
  | zero => exact refl c
  | succ n ih =>
      exact (((refl c).emit 0 (by decide : Op.pop ≠ .label)).trans (ih _)).congr (Nat.zero_le _)
        fun _ => rfl

end Grows

/-- A node has been given code: the labels taken for it are marked, and it leaves one value. -/
structure Lays (c c' : Context) (declarations : Nat) : Prop where
  grows : Grows c c' declarations (allotted c.labels c'.labels)
  depth : c'.depth = c.depth + 1

namespace Emit

theorem unaryOp_ne_label (op : UnaryOp) : unaryOp op ≠ .label := by
  cases op <;> decide

theorem binaryOp_ne_label (op : BinaryOp) (left : Ty) : binaryOp op left ≠ .label := by
  cases op <;> cases left <;> decide

theorem depth_unary (c : Context) (op : UnaryOp) : (c.emit (unaryOp op) 0).depth = c.depth := by
  cases op <;> rfl

theorem depth_binary (c : Context) (op : BinaryOp) (left : Ty) :
    (c.emit (binaryOp op left) 0).depth = c.depth - 1 := by
  cases op <;> cases left <;> rfl

theorem emit_lays (c : Context) {op : Op} (arg : Int64) (hop : op ≠ .label)
    (heffect : op.effect = 1) : Lays c (c.emit op arg) 0 := by
  refine ⟨((Grows.refl c).emit arg hop).congr (Nat.zero_le _) fun _ => ?_, ?_⟩
  · rw [Context.labels_emit, allotted_self]
  · rw [Op.effect] at heffect
    rw [Context.depth_emit]
    omega

theorem jumpedOut_lays (c : Context) (f : LoopFrame) (label : Nat) :
    Lays c (c.jumpedOut f label) 0 := by
  refine ⟨?_, rfl⟩
  refine (((Grows.dropped c _).emitAt label (by decide)).withDepth _).congr (Nat.zero_le _)
    fun arg => ?_
  rw [Context.jumpedOut, Context.labels_withDepth, Context.labels_emitAt, Context.labels_dropped,
    allotted_self]

mutual

/-- The code of an expression is appended, leaves one value, and marks each of its labels once. -/
theorem expr_lays : ∀ (e : Expr .resolved) {frame : Option LoopFrame} {c c' : Context} {u : Unit},
    expr frame e c = .ok (u, c') → Lays c c' e.declarations
  | .int value _, _, c, _, _, h => by
      cases h
      exact emit_lays c value (by decide) rfl
  | .string value t, _, c, _, _, h => by
      obtain ⟨index, strings, -, hprefix, hsize, rfl⟩ := string_inv h
      have hl := emit_lays { c with strings } (Int64.ofNat index) (by decide : Op.pushString ≠ .label)
        rfl
      refine ⟨⟨hl.grows.code, hl.grows.size, hprefix, ?_, hl.grows.labels, hl.grows.marks⟩, hl.depth⟩
      rw [Context.size_emitAt]
      show strings.size + c.code.size ≤ c.strings.size + (c.code.size + 1)
      omega
  | .bool value _, _, c, _, _, h => by
      cases h
      exact emit_lays c _ (by decide) rfl
  | .unit _, _, c, _, _, h => by
      cases h
      exact emit_lays c 0 (by decide) rfl
  | .var slot _, _, c, _, _, h => by
      cases h
      exact emit_lays c _ (by decide) rfl
  | .assign slot value _, _, c, _, _, h => by
      obtain ⟨c₁, hv, rfl⟩ := assign_inv h
      have hl := expr_lays value hv
      exact ⟨(hl.grows.emitAt slot (by decide)).congr (Nat.le_succ _) fun _ => rfl, hl.depth⟩
  | .unary op operand _, _, c, _, _, h => by
      obtain ⟨c₁, hv, rfl⟩ := unary_inv h
      have hl := expr_lays operand hv
      exact ⟨(hl.grows.emit 0 (unaryOp_ne_label op)).congr (Nat.le_succ _) fun _ => rfl,
        (depth_unary c₁ op).trans hl.depth⟩
  | .binary op left right _, _, c, _, _, h => by
      obtain ⟨c₁, c₂, hleft, hright, rfl⟩ := binary_inv h
      have hl := expr_lays left hleft
      have hr := expr_lays right hright
      refine ⟨((hl.grows.trans hr.grows).emit 0 (binaryOp_ne_label _ _)).congr (Nat.le_succ _) ?_, ?_⟩
      · exact fun arg => (allotted_split hl.grows.labels hr.grows.labels arg).symm
      · rw [depth_binary, hr.depth, hl.depth]
        rfl
  | .block stmts _, _, c, _, _, h => body_lays stmts h
  | .choice cond stmts others _, _, c, _, _, h => by
      obtain ⟨c₁, c₂, c₃, hc, hb, ho, rfl⟩ := choice_inv h
      have hlc := expr_lays cond hc
      have hlb := body_lays stmts hb
      have hlo := branches_lays others ho rfl
      refine ⟨?_, rfl⟩
      have hg := (Grows.withLabels c 2).trans hlc.grows
      have hg := (hg.emitAt (c.labels + 1) (by decide : Op.jumpFalse ≠ .label)).trans hlb.grows
      have hg := (hg.closeArm c.labels (c.labels + 1) c.depth).trans hlo.grows
      have hg := (hg.label c.labels).withDepth (c.depth + 1)
      refine hg.congr ?_ fun arg => ?_
      · simp only [Expr.declarations]
        omega
      · have h₁ := hlc.grows.labels
        have h₂ := hlb.grows.labels
        have h₃ := hlo.grows.labels
        simp only [Context.labels_withLabels, Context.labels_emitAt, Context.labels_closeArm,
          Context.labels_withDepth] at h₁ h₂ h₃ ⊢
        rw [allotted_split (by omega : c.labels ≤ c.labels + 1) (by omega : _ ≤ c₃.labels),
          allotted_split (by omega : c.labels + 1 ≤ c.labels + 1 + 1) (by omega : _ ≤ c₃.labels),
          allotted_split (h₁ : c.labels + 1 + 1 ≤ _) (by omega : _ ≤ c₃.labels), allotted_split h₂ h₃]
        omega
  | .loop cond stmts _, _, c, _, _, h => by
      obtain ⟨c₁, c₂, hc, hb, rfl⟩ := loop_inv h
      have hlc := expr_lays cond hc
      have hlb := body_lays stmts hb
      refine ⟨?_, rfl⟩
      have hg := ((Grows.withLabels c 2).label c.labels).trans hlc.grows
      have hg := (hg.emitAt (c.labels + 1) (by decide : Op.jumpFalse ≠ .label)).trans hlb.grows
      refine (hg.closeLoop c.loopFrame c.code.size).congr ?_ fun arg => ?_
      · simp only [Expr.declarations]
        omega
      · have h₁ := hlc.grows.labels
        have h₂ := hlb.grows.labels
        simp only [Context.labels_withLabels, Context.labels_emitAt, Context.labels_closeLoop,
          Context.loopFrame] at h₁ h₂ ⊢
        rw [allotted_split (by omega : c.labels ≤ c.labels + 1) (by omega : _ ≤ c₂.labels),
          allotted_split (by omega : c.labels + 1 ≤ c.labels + 1 + 1) (by omega : _ ≤ c₂.labels),
          allotted_split (h₁ : c.labels + 1 + 1 ≤ _) h₂]
        omega

/-- The later branches begin at the depth of the choice and leave one value, whichever is taken. -/
theorem branches_lays : ∀ (b : Branches .resolved) {frame : Option LoopFrame} {base finish : Nat}
    {c c' : Context} {u : Unit}, branches frame base finish b c = .ok (u, c') → c.depth = base →
      Lays c c' b.declarations
  | .done, _, _, _, c, _, _, h, _ => by
      cases h
      exact emit_lays c 0 (by decide) rfl
  | .otherwise stmts, _, _, _, c, _, _, h, _ => body_lays stmts h
  | .orIf cond stmts others, _, base, finish, c, c', _, h, hbase => by
      obtain ⟨c₁, c₂, hc, hb, ho⟩ := orIf_inv h
      have hlc := expr_lays cond hc
      have hlb := body_lays stmts hb
      have hlo := branches_lays others ho rfl
      refine ⟨?_, hbase ▸ hlo.depth⟩
      have hg := (Grows.withLabels c 1).trans hlc.grows
      have hg := (hg.emitAt c.labels (by decide : Op.jumpFalse ≠ .label)).trans hlb.grows
      refine ((hg.closeArm finish c.labels base).trans hlo.grows).congr ?_ fun arg => ?_
      · simp only [Branches.declarations]
        omega
      · have h₁ := hlc.grows.labels
        have h₂ := hlb.grows.labels
        have h₃ := hlo.grows.labels
        simp only [Context.labels_withLabels, Context.labels_emitAt, Context.labels_closeArm]
          at h₁ h₂ h₃ ⊢
        rw [allotted_split (by omega : c.labels ≤ c.labels + 1) (by omega : _ ≤ c'.labels),
          allotted_split (h₁ : c.labels + 1 ≤ _) (by omega : _ ≤ c'.labels), allotted_split h₂ h₃]
        omega

theorem body_lays : ∀ (stmts : List (Stmt .resolved)) {frame : Option LoopFrame} {c c' : Context}
    {u : Unit}, body frame stmts c = .ok (u, c') → Lays c c' (Body.declarations stmts)
  | [], _, c, _, _, h => by
      cases h
      exact emit_lays c 0 (by decide) rfl
  | [s], _, c, _, _, h => stmt_lays s (body_one_inv h)
  | s :: next :: rest, _, c, _, _, h => by
      obtain ⟨c₁, hs, hr⟩ := body_cons_inv h
      have hls := stmt_lays s hs
      have hlr := body_lays (next :: rest) hr
      refine ⟨?_, ?_⟩
      · refine ((hls.grows.emit 0 (by decide : Op.pop ≠ .label)).trans hlr.grows).congr ?_ fun arg => ?_
        · rw [Body.declarations]
          omega
        · exact (allotted_split hls.grows.labels hlr.grows.labels arg).symm
      · rw [hlr.depth, Context.depth_emit, hls.depth]
        rfl

/-- The code of a statement leaves one value, which the body around it drops or keeps. -/
theorem stmt_lays : ∀ (s : Stmt .resolved) {frame : Option LoopFrame} {c c' : Context} {u : Unit},
    stmt frame s c = .ok (u, c') → Lays c c' s.declarations
  | .declare _ slot init _, _, c, _, _, h => by
      obtain ⟨c₁, hi, rfl⟩ := declare_inv h
      have hl := expr_lays init hi
      refine ⟨((hl.grows.emitAt slot (by decide : Op.declare ≠ .label)).emit 0
        (by decide : Op.pushUnit ≠ .label)).congr (Nat.le_succ _) fun _ => rfl, ?_⟩
      rw [Context.depth_emit, Context.depth_emitAt, hl.depth]
      rfl
  | .write newline value _ _, _, c, _, _, h => by
      obtain ⟨c₁, hv, rfl⟩ := write_inv h
      have hl := expr_lays value hv
      have hop : (if newline then Op.writeln else .write) ≠ .label := by cases newline <;> decide
      refine ⟨((hl.grows.emit 0 hop).emit 0 (by decide : Op.pushUnit ≠ .label)).congr
        (Nat.le_add_right _ 2) fun _ => rfl, ?_⟩
      rw [Context.depth_emit, Context.depth_emit, hl.depth]
      cases newline <;> rfl
  | .leave _, _, c, _, _, h => by
      obtain ⟨f, rfl, rfl⟩ := leave_inv h
      exact jumpedOut_lays c f f.leave
  | .again _, _, c, _, _, h => by
      obtain ⟨f, rfl, rfl⟩ := again_inv h
      exact jumpedOut_lays c f f.again
  | .expr value _, _, c, _, _, h => expr_lays value h

end

/-- The code of a program leaves the stack as it was and marks all labels. -/
theorem program_lays : ∀ (program : Body .resolved) {c c' : Context} {u : Unit},
    Emit.program program c = .ok (u, c') →
      Grows c c' (Body.declarations program) (allotted c.labels c'.labels) ∧ c'.depth = c.depth
  | [], c, _, _, h => by
      cases h
      exact ⟨(Grows.refl c).congr (Nat.le_refl _) fun _ => (allotted_self _ _).symm, rfl⟩
  | s :: rest, c, _, _, h => by
      obtain ⟨c₁, hs, hr⟩ := program_cons_inv h
      have hls := stmt_lays s hs
      obtain ⟨hgr, hdepth⟩ := program_lays rest hr
      refine ⟨?_, ?_⟩
      · refine ((hls.grows.emit 0 (by decide : Op.pop ≠ .label)).trans hgr).congr ?_ fun arg => ?_
        · rw [Body.declarations]
          omega
        · exact (allotted_split hls.grows.labels hgr.labels arg).symm
      · rw [hdepth, Context.depth_emit, hls.depth]
        rfl

end Emit

end BlockLang

import BlockLang.Proofs.Layout

/-! Loops keep to themselves. The code of a loop is a piece of the whole code, from the label of its
start to that of its end. No instruction outside of it names a label inside of it. An instruction
inside of it leaves the values below the height with which the loop was entered alone, unless control
is on its way to a loop around this one: then it is one that drops a value, or the jump itself. -/

namespace BlockLang

/-- An instruction of the code of a node that is entered with a stack of height `base`. The labels
that it names are the node's own, unless it leaves for the loop around the node. -/
inductive Fine (base : Nat) (own : Nat → Prop) (frame : Option LoopFrame) : Emitted → Prop where
  | other {op : Op} {arg : Int64} {d : Nat} : op.operand ≠ .label →
      base + op.pops ≤ d ∨ op = .pop → Fine base own frame ⟨Instr.of op arg, d⟩
  | label {op : Op} {l d : Nat} : op.operand = .label → base + op.pops ≤ d → own l →
      Fine base own frame ⟨Instr.of op (Int64.ofNat l), d⟩
  | exit {f : LoopFrame} {l d : Nat} : frame = some f → l = f.leave ∨ l = f.again → f.depth ≤ d →
      Fine base own frame ⟨Instr.of .jump (Int64.ofNat l), d⟩

/-- An instruction that names none of the labels from `lo` up to `hi`, but perhaps one below `top`. -/
def Avoids (lo hi top : Nat) (x : Emitted) : Prop :=
  ∀ op arg, x.instr = Instr.of op arg → op.operand = .label →
    ∃ l < top, arg = Int64.ofNat l ∧ (l < lo ∨ hi ≤ l)

namespace Fine

variable {base base' lo hi top : Nat} {own own' : Nat → Prop} {frame : Option LoopFrame} {x : Emitted}

theorem mono (h : Fine base own frame x) (hbase : base' ≤ base) (hown : ∀ l, own l → own' l) :
    Fine base' own' frame x := by
  cases h with
  | other hop hd => exact .other hop (hd.imp_left fun hd => by omega)
  | label hop hd hl => exact .label hop (by omega) (hown _ hl)
  | exit hf hl hd => exact .exit hf hl hd

/-- An instruction avoids a range of labels that has none of its own in it, nor those of the loop around it. -/
theorem avoids (h : Fine base own frame x)
    (hown : ∀ l, own l → l < top ∧ (l < lo ∨ hi ≤ l))
    (hframe : ∀ f, frame = some f → f.leave < lo ∧ f.again < lo) (hlo : lo ≤ top) :
    Avoids lo hi top x := by
  intro op arg heq hlabel
  cases h with
  | other hop hd =>
      obtain ⟨rfl, rfl⟩ := Instr.of_inj.mp heq
      exact absurd hlabel hop
  | @label _ l _ _ _ hl =>
      obtain ⟨rfl, rfl⟩ := Instr.of_inj.mp heq
      exact ⟨l, (hown l hl).1, rfl, (hown l hl).2⟩
  | @exit f l _ hf hl _ =>
      obtain ⟨rfl, rfl⟩ := Instr.of_inj.mp heq
      obtain ⟨hleave, hagain⟩ := hframe f hf
      have hlt : l < lo := by rcases hl with rfl | rfl <;> assumption
      exact ⟨l, Nat.lt_of_lt_of_le hlt hlo, rfl, .inl hlt⟩

/-- An instruction of confined code is of one of three sorts: it names no label, one of its own, or it leaves a
loop. -/
theorem inv {op : Op} {arg : Int64} {d : Nat} (h : Fine base own frame ⟨Instr.of op arg, d⟩) :
    op.operand ≠ .label ∧ (base + op.pops ≤ d ∨ op = .pop) ∨
    op.operand = .label ∧ base + op.pops ≤ d ∧ (∃ l, own l ∧ arg = Int64.ofNat l) ∨
    op = .jump ∧ ∃ f l, frame = some f ∧ (l = f.leave ∨ l = f.again) ∧ arg = Int64.ofNat l := by
  generalize hx : (⟨Instr.of op arg, d⟩ : Emitted) = x at h
  cases h with
  | other hop hd =>
      obtain ⟨hi, rfl⟩ := Emitted.mk.inj hx
      obtain ⟨rfl, -⟩ := Instr.of_inj.mp hi
      exact .inl ⟨hop, hd⟩
  | label hop hd hl =>
      obtain ⟨hi, rfl⟩ := Emitted.mk.inj hx
      obtain ⟨rfl, rfl⟩ := Instr.of_inj.mp hi
      exact .inr (.inl ⟨hop, hd, _, hl, rfl⟩)
  | exit hf hl hd =>
      obtain ⟨hi, rfl⟩ := Emitted.mk.inj hx
      obtain ⟨rfl, rfl⟩ := Instr.of_inj.mp hi
      exact .inr (.inr ⟨rfl, _, _, hf, hl, rfl⟩)

/-- What leaves for a loop stays in the code of that loop. -/
theorem reframe {f : LoopFrame} (h : Fine f.depth own (some f) x) (hown : ∀ l, own l → own' l)
    (hleave : own' f.leave) (hagain : own' f.again) : Fine f.depth own' frame x := by
  cases h with
  | other hop hd => exact .other hop hd
  | label hop hd hl => exact .label hop hd (hown _ hl)
  | exit hf hl hd =>
      cases hf
      refine .label rfl hd ?_
      rcases hl with rfl | rfl <;> assumption

end Fine

theorem Avoids.mono {lo hi top top' : Nat} {x : Emitted} (h : Avoids lo hi top x)
    (htop : top ≤ top') : Avoids lo hi top' x := by
  intro op arg heq hlabel
  obtain ⟨l, hl, harg, hout⟩ := h op arg heq hlabel
  exact ⟨l, Nat.lt_of_lt_of_le hl htop, harg, hout⟩

/-- A loop in a piece of code that begins at `start`. The loop's own labels are those from that of its
start up to `hi`, and `frame` is the loop around it. -/
structure Span (start bound : Nat) (code : List Emitted) (labels : Nat) (loop : LoopSpan)
    (frame : Option LoopFrame) (hi : Nat) : Prop where
  start_le : start ≤ loop.first
  bound_le : bound ≤ loop.frame.again
  first_le : loop.first ≤ loop.last
  leave_eq : loop.frame.leave = loop.frame.again + 1
  leave_lt : loop.frame.leave < hi
  hi_le : hi ≤ labels
  outer : ∀ f, frame = some f → f.leave < loop.frame.again ∧ f.again < loop.frame.again
  enter : code[loop.first]? =
    some ⟨Instr.of .label (Int64.ofNat loop.frame.again), loop.frame.depth⟩
  leave : ∃ d, code[loop.last]? = some ⟨Instr.of .label (Int64.ofNat loop.frame.leave), d⟩
  after : code[loop.last + 1]? = some ⟨Instr.of .pushUnit 0, loop.frame.depth⟩
  inside : ∀ i x, loop.first ≤ i → i ≤ loop.last → code[i]? = some x →
    Fine loop.frame.depth (fun l => loop.frame.again ≤ l ∧ l < hi) frame x
  outside : ∀ i x, start ≤ i → i < loop.first ∨ loop.last < i → code[i]? = some x →
    Avoids loop.frame.again hi labels x

theorem getElem?_of_prefix_lt {xs ys : List Emitted} {i : Nat} {x : Emitted} (h : xs <+: ys)
    (hi : i < xs.length) (hx : ys[i]? = some x) : xs[i]? = some x := by
  obtain ⟨zs, rfl⟩ := h
  rwa [List.getElem?_append_left hi] at hx

namespace Span

variable {start start' bound bound' labels labels' hi : Nat} {code code' : List Emitted}
  {loop : LoopSpan} {frame : Option LoopFrame}

theorem last_lt (h : Span start bound code labels loop frame hi) : loop.last + 1 < code.length :=
  (List.getElem?_eq_some_iff.mp h.after).1

theorem range (h : Span start bound code labels loop frame hi) :
    loop.frame.again < hi ∧ hi ≤ labels := by
  have hleave := h.leave_eq
  have hlt := h.leave_lt
  exact ⟨by omega, h.hi_le⟩

/-- More code behind a loop. -/
theorem extend (h : Span start bound code labels loop frame hi) (hcode : code <+: code')
    (hlabels : labels ≤ labels')
    (hnew : ∀ i x, code.length ≤ i → code'[i]? = some x → Avoids loop.frame.again hi labels' x) :
    Span start bound code' labels' loop frame hi := by
  have hlast := h.last_lt
  refine ⟨h.start_le, h.bound_le, h.first_le, h.leave_eq, h.leave_lt, Nat.le_trans h.hi_le hlabels,
    h.outer, getElem?_of_prefix hcode h.enter, h.leave.imp fun d hd => getElem?_of_prefix hcode hd,
    getElem?_of_prefix hcode h.after, fun i x hfirst hl hx => ?_, fun i x hs hout hx => ?_⟩
  · exact h.inside i x hfirst hl (getElem?_of_prefix_lt hcode (by omega) hx)
  · by_cases hi : i < code.length
    · exact (h.outside i x hs hout (getElem?_of_prefix_lt hcode hi hx)).mono hlabels
    · exact hnew i x (Nat.le_of_not_lt hi) hx

/-- More code in front of a loop. -/
theorem prepend (h : Span start' bound' code labels loop frame hi) (hstart : start ≤ start')
    (hbound : bound ≤ bound')
    (hold : ∀ i x, start ≤ i → i < start' → code[i]? = some x →
      Avoids loop.frame.again hi labels x) :
    Span start bound code labels loop frame hi := by
  refine ⟨Nat.le_trans hstart h.start_le, Nat.le_trans hbound h.bound_le, h.first_le, h.leave_eq,
    h.leave_lt, h.hi_le, h.outer, h.enter, h.leave, h.after, h.inside, fun i x hs hout hx => ?_⟩
  by_cases hi : i < start'
  · exact hold i x hs hi hx
  · exact h.outside i x (Nat.le_of_not_lt hi) hout hx

end Span

/-- The loop around a node and the labels that its code may name but does not take. -/
structure Outer (frame : Option LoopFrame) (extra : Nat → Prop) (c : Context) : Prop where
  frame : ∀ f, frame = some f → f.leave < c.labels ∧ f.again < c.labels ∧ f.depth ≤ c.depth
  extra : ∀ l, extra l → l < c.labels

theorem Outer.mono {frame : Option LoopFrame} {extra extra' : Nat → Prop} {c c' : Context}
    (h : Outer frame extra c) (hextra : ∀ l, extra' l → extra l) (hlabels : c.labels ≤ c'.labels)
    (hdepth : c.depth ≤ c'.depth) : Outer frame extra' c' := by
  refine ⟨fun f hf => ?_, fun l hl => Nat.lt_of_lt_of_le (h.extra l (hextra l hl)) hlabels⟩
  obtain ⟨hleave, hagain, hd⟩ := h.frame f hf
  omega

theorem Outer.withLabels {frame : Option LoopFrame} {extra extra' : Nat → Prop} {c : Context}
    (h : Outer frame extra c) {n : Nat} (hextra : ∀ l, extra' l → extra l ∨ l < c.labels + n) :
    Outer frame extra' (c.withLabels n) := by
  refine ⟨fun f hf => ?_, fun l hl => ?_⟩
  · obtain ⟨hleave, hagain, hd⟩ := h.frame f hf
    exact ⟨Nat.lt_add_right n hleave, Nat.lt_add_right n hagain, hd⟩
  · rcases hextra l hl with hl | hl
    · exact Nat.lt_add_right n (h.extra l hl)
    · exact hl

/-- Instructions that name no more than one part of the labels avoid every other part. -/
theorem Fine.avoids_apart {base a b lo hi top : Nat} {frame : Option LoopFrame} {extra : Nat → Prop}
    {c : Context} {x : Emitted} (h : Fine base (fun l => extra l ∨ a ≤ l ∧ l < b) frame x)
    (ho : Outer frame extra c) (hc : c.labels ≤ lo) (hlo : lo ≤ top) (hb : b ≤ top)
    (hapart : b ≤ lo ∨ hi ≤ a) : Avoids lo hi top x := by
  refine h.avoids (fun l hown => ?_) (fun f hf => ?_) hlo
  · rcases hown with hextra | hown
    · have hextra := ho.extra l hextra
      omega
    · omega
  · have hf := ho.frame f hf
    omega

/-- Code that has been added for a node or a piece of one. -/
structure Confined (frame : Option LoopFrame) (base : Nat) (extra : Nat → Prop) (c c' : Context) :
    Prop where
  code : c.code.toList <+: c'.code.toList
  labels : c.labels ≤ c'.labels
  fine : ∀ i x, c.code.size ≤ i → c'.code.toList[i]? = some x →
    Fine base (fun l => extra l ∨ c.labels ≤ l ∧ l < c'.labels) frame x
  loops : ∀ loop ∈ c'.loops, loop ∈ c.loops ∨
    ∃ around hi, Span c.code.size c.labels c'.code.toList c'.labels loop around hi

namespace Confined

variable {frame : Option LoopFrame} {base base' : Nat} {extra extra' : Nat → Prop}
  {c c' c₁ c₂ : Context}

theorem mono (h : Confined frame base extra c c') (hbase : base' ≤ base)
    (hextra : ∀ l, extra l → extra' l) : Confined frame base' extra' c c' :=
  ⟨h.code, h.labels, fun i x hi hx => (h.fine i x hi hx).mono hbase fun l =>
    Or.imp_left (hextra l), h.loops⟩

/-- Confined pieces in a row are confined: a loop of the first gets more code behind it, one of the second more in
front. -/
theorem trans (h : Confined frame base extra c c₁) (h' : Confined frame base extra c₁ c₂)
    (ho : Outer frame extra c) : Confined frame base extra c c₂ := by
  have hl := h.labels
  have hl' := h'.labels
  refine ⟨h.code.trans h'.code, Nat.le_trans hl hl', fun i x hi hx => ?_, fun loop hloop => ?_⟩
  · by_cases hlt : i < c₁.code.toList.length
    · refine (h.fine i x hi (getElem?_of_prefix_lt h'.code hlt hx)).mono (Nat.le_refl _) fun l => ?_
      exact Or.imp_right fun hown => ⟨hown.1, by omega⟩
    · rw [Array.length_toList] at hlt
      refine (h'.fine i x (Nat.le_of_not_lt hlt) hx).mono (Nat.le_refl _) fun l => ?_
      exact Or.imp_right fun hown => ⟨by omega, hown.2⟩
  · rcases h'.loops loop hloop with hold | ⟨around, hi, hs⟩
    · refine (h.loops loop hold).imp_right ?_
      rintro ⟨around, hi, hs⟩
      have hb := hs.bound_le
      have hr := hs.range
      refine ⟨around, hi, hs.extend h'.code hl' fun i x hi hx => ?_⟩
      rw [Array.length_toList] at hi
      exact (h'.fine i x hi hx).avoids_apart ho hb (by omega) (Nat.le_refl _) (.inr (by omega))
    · have hb := hs.bound_le
      have hr := hs.range
      refine .inr ⟨around, hi, hs.prepend ?_ hl fun i x hfrom hto hx => ?_⟩
      · have hlen := h.code.length_le
        rwa [Array.length_toList, Array.length_toList] at hlen
      · have hx₁ := getElem?_of_prefix_lt h'.code (by rwa [Array.length_toList]) hx
        exact (h.fine i x hfrom hx₁).avoids_apart ho (by omega) (by omega) (by omega) (.inl hb)

theorem refl (c : Context) : Confined frame base extra c c := by
  refine ⟨List.prefix_refl _, Nat.le_refl _, fun i x hi hx => ?_, fun loop hloop => .inl hloop⟩
  have hlt := (List.getElem?_eq_some_iff.mp hx).1
  rw [Array.length_toList] at hlt
  exact absurd hi (Nat.not_le.mpr hlt)

/-- One more instruction. -/
theorem single {op : Op} {arg : Int64} (h : Fine base extra frame ⟨Instr.of op arg, c.depth⟩) :
    Confined frame base extra c (c.emit op arg) := by
  refine ⟨?_, Nat.le_refl _, fun i x hi hx => ?_, fun loop hloop => .inl hloop⟩
  · rw [Context.toList_emit]
    exact List.prefix_append _ _
  · have hlt : i < c.code.size + 1 := by
      have hlt := (List.getElem?_eq_some_iff.mp hx).1
      rwa [Array.length_toList, Context.size_emit] at hlt
    obtain rfl : i = c.code.size := by omega
    rw [Context.getElem?_emit] at hx
    cases hx
    exact h.mono (Nat.le_refl _) fun _ => Or.inl

theorem emit (h : Confined frame base extra c c₁) (ho : Outer frame extra c) {op : Op}
    (arg : Int64) (hop : op.operand ≠ .label) (hd : base + op.pops ≤ c₁.depth ∨ op = .pop) :
    Confined frame base extra c (c₁.emit op arg) :=
  h.trans (single (.other hop hd)) ho

theorem emitAt (h : Confined frame base extra c c₁) (ho : Outer frame extra c) {op : Op} {l : Nat}
    (hop : op.operand = .label) (hd : base + op.pops ≤ c₁.depth) (hl : extra l) :
    Confined frame base extra c (c₁.emitAt op l) :=
  h.trans (single (.label hop hd hl)) ho

theorem withDepth (h : Confined frame base extra c c₁) (d : Nat) :
    Confined frame base extra c (c₁.withDepth d) :=
  ⟨h.code, h.labels, h.fine, h.loops⟩

theorem dropped (h : Confined frame base extra c c₁) (ho : Outer frame extra c) (n : Nat) :
    Confined frame base extra c (c₁.dropped n) := by
  induction n generalizing c₁ with
  | zero => exact h
  | succ n ih => exact ih (h.emit ho 0 (by decide) (.inr rfl))

/-- Labels that were taken in front of the code are the node's own. -/
theorem absorb {n : Nat} (h : Confined frame base extra (c.withLabels n) c')
    (hextra : ∀ l, extra l → extra' l ∨ c.labels ≤ l ∧ l < c.labels + n) :
    Confined frame base extra' c c' := by
  have hl : c.labels + n ≤ c'.labels := h.labels
  refine ⟨h.code, by omega, fun i x hi hx => (h.fine i x hi hx).mono (Nat.le_refl _) fun l hown => ?_,
    fun loop hloop => (h.loops loop hloop).imp_right ?_⟩
  · rcases hown with hown | ⟨hlo, hhi⟩
    · exact (hextra l hown).imp_right fun ⟨hlo, hhi⟩ => ⟨hlo, by omega⟩
    · have hlo : c.labels + n ≤ l := hlo
      exact .inr ⟨by omega, hhi⟩
  · rintro ⟨around, hi, hs⟩
    refine ⟨around, hi, hs.prepend (Nat.le_refl _) (Nat.le_add_right _ _) fun i x hfrom hto _ => ?_⟩
    exact absurd hto (Nat.not_lt.mpr hfrom)

/-- The body of a loop, seen from outside of the loop. -/
theorem reframe {f : LoopFrame} (h : Confined (some f) f.depth (fun _ => False) c c')
    (hleave : extra f.leave) (hagain : extra f.again) : Confined frame f.depth extra c c' := by
  refine ⟨h.code, h.labels, fun i x hi hx => ?_, h.loops⟩
  exact (h.fine i x hi hx).reframe (fun l => Or.imp_left False.elim) (.inl hleave) (.inl hagain)

theorem closeArm {finish next d : Nat} (h : Confined frame base extra c c₁)
    (ho : Outer frame extra c) (hd : base ≤ c₁.depth) (hfinish : extra finish) (hnext : extra next) :
    Confined frame base extra c (c₁.closeArm finish next d) := by
  have hjump : Confined frame base extra c (c₁.emitAt .jump finish) := h.emitAt ho rfl hd hfinish
  have hlabel : Confined frame base extra c ((c₁.emitAt .jump finish).emitAt .label next) :=
    hjump.emitAt ho rfl hd hnext
  exact hlabel.withDepth d

/-- An arm of a choice, from its condition and its body. -/
theorem arm {finish next : Nat} (ho : Outer frame extra c) (hfinish : extra finish)
    (hnext : extra next) (hcond : Confined frame c.depth (fun _ => False) c c₁)
    (hd₁ : c₁.depth = c.depth + 1)
    (hbody : Confined frame (c₁.emitAt .jumpFalse next).depth (fun _ => False)
      (c₁.emitAt .jumpFalse next) c₂)
    (hd₂ : c₂.depth = (c₁.emitAt .jumpFalse next).depth + 1) :
    Confined frame c.depth extra c (c₂.closeArm finish next c.depth) := by
  have hd : (c₁.emitAt .jumpFalse next).depth = c.depth := by
    rw [Context.depth_emitAt, hd₁]
    rfl
  have hcond := hcond.mono (Nat.le_refl _) fun l => (False.elim : False → extra l)
  have hbody := hbody.mono (Nat.le_of_eq hd.symm) fun l => (False.elim : False → extra l)
  have htest := hcond.emitAt ho (rfl : Op.jumpFalse.operand = _) (Nat.le_of_eq hd₁.symm) hnext
  exact (htest.trans hbody ho).closeArm ho (by omega) hfinish hnext

theorem jumpedOut {f : LoopFrame} {l : Nat} (ho : Outer frame (fun _ => False) c)
    (hf : frame = some f) (hl : l = f.leave ∨ l = f.again) :
    Confined frame c.depth (fun _ => False) c (c.jumpedOut f l) := by
  have hd : f.depth ≤ (c.dropped (c.depth - f.depth)).depth := by
    have hle := (ho.frame f hf).2.2
    rw [Context.depth_dropped]
    omega
  exact (((refl c).dropped ho _).trans (single (.exit hf hl hd)) ho).withDepth _

/-- A loop is closed: what has been emitted for it is a span. -/
theorem closeLoop (hframe : ∀ f, frame = some f → f.leave < c.labels ∧ f.again < c.labels)
    (ho : Outer frame (fun l => l = c.labels ∨ l = c.labels + 1) (c.withLabels 2))
    (h : Confined frame c.depth (fun l => l = c.labels ∨ l = c.labels + 1) (c.withLabels 2) c₂)
    (hdepth : c₂.depth = c.depth + 1)
    (henter : c₂.code.toList[c.code.size]? =
      some ⟨Instr.of .label (Int64.ofNat c.labels), c.depth⟩) :
    Confined frame c.depth (fun _ => False) c (c₂.closeLoop c.loopFrame c.code.size) := by
  let d := (c₂.emit .pop 0).emitAt .jump c.labels
  let e := d.emitAt .label (c.labels + 1)
  have hdd : d.depth = c.depth := by
    show c₂.depth + 0 - 1 + 0 - 0 = c.depth
    omega
  have hd : Confined frame c.depth _ (c.withLabels 2) d :=
    (h.emit ho 0 (by decide) (.inr rfl)).emitAt ho rfl (Nat.le_of_eq hdd.symm) (.inl rfl)
  have he : Confined frame c.depth _ (c.withLabels 2) e :=
    hd.emitAt ho rfl (Nat.le_of_eq hdd.symm) (.inr rfl)
  have hunit : Fine c.depth (fun _ => False) none ⟨Instr.of .pushUnit 0, c.depth⟩ :=
    .other (by decide) (.inl (Nat.le_refl _))
  have hlast : Confined none c.depth _ (e.withDepth c.depth)
      ((e.withDepth c.depth).emit .pushUnit 0) := single hunit
  have hall : Confined frame c.depth (fun _ => False) c ((e.withDepth c.depth).emit .pushUnit 0) :=
    ((he.withDepth c.depth).emit ho 0 (by decide) (.inl (Nat.le_refl _))).absorb fun l hl =>
      .inr (by omega)
  have hlabels : c.labels + 2 ≤ c₂.labels := h.labels
  have hsize : c.code.size ≤ d.code.size := by
    have hlen := hd.code.length_le
    rwa [Array.length_toList, Array.length_toList] at hlen
  refine ⟨hall.code, hall.labels, hall.fine, fun loop hloop => ?_⟩
  rcases Array.mem_push.mp hloop with hold | rfl
  · exact hall.loops loop hold
  · refine .inr ⟨frame, c₂.labels, Nat.le_refl _, Nat.le_refl _, hsize, rfl, hlabels, Nat.le_refl _,
      hframe, ?_, ⟨d.depth, ?_⟩, ?_, fun i x hfirst hi hx => ?_, fun i x hfirst hout hx => ?_⟩
    · have hgrows := ((Grows.refl c₂).emit 0 (by decide : Op.pop ≠ .label)).emitAt c.labels
        (by decide : Op.jump ≠ .label)
      exact getElem?_of_prefix ((hgrows.label (c.labels + 1)).code.trans hlast.code) henter
    · exact getElem?_of_prefix hlast.code (d.getElem?_emit .label (Int64.ofNat (c.labels + 1)))
    · have hafter := (e.withDepth c.depth).getElem?_emit .pushUnit 0
      rwa [Context.size_withDepth, Context.size_emitAt] at hafter
    · have hx : e.code.toList[i]? = some x := by
        refine getElem?_of_prefix_lt hlast.code ?_ hx
        rw [Array.length_toList, Context.size_emitAt]
        exact Nat.lt_succ_of_le hi
      refine (he.fine i x hfirst hx).mono (Nat.le_refl _) fun l hown => ?_
      have he : e.labels = c₂.labels := rfl
      have hc : (c.withLabels 2).labels = c.labels + 2 := rfl
      show c.labels ≤ l ∧ l < c₂.labels
      omega
    · have hi : e.code.size ≤ i := by
        rw [Context.size_emitAt]
        rcases hout with hout | hout
        · exact absurd hfirst (Nat.not_le.mpr hout)
        · exact hout
      refine (hlast.fine i x hi hx).avoids (fun l hown => ?_) (fun f hf => by cases hf) ?_
      · rcases hown with hown | ⟨hlo, hlt⟩
        · exact hown.elim
        · exact absurd hlo (Nat.not_le.mpr hlt)
      · show c.labels ≤ c₂.labels
        omega

end Confined

/-! ### Nodes -/

namespace Emit

theorem unaryOp_pops (op : UnaryOp) : (unaryOp op).pops = 1 ∧ (unaryOp op).operand ≠ .label := by
  cases op <;> decide

theorem binaryOp_pops (op : BinaryOp) (left : Ty) :
    (binaryOp op left).pops = 2 ∧ (binaryOp op left).operand ≠ .label := by
  cases op <;> cases left <;> decide

theorem push_confined {frame : Option LoopFrame} (c : Context) {op : Op} (arg : Int64)
    (hop : op.operand ≠ .label) (hpops : op.pops = 0) :
    Confined frame c.depth (fun _ => False) c (c.emit op arg) :=
  .single (.other hop (.inl (by omega)))

mutual

/-- The code of an expression keeps to its own labels and to the stack above the depth at which it begins. -/
theorem expr_confined : ∀ (e : Expr .resolved) {frame : Option LoopFrame} {c c' : Context} {u : Unit},
    expr frame e c = .ok (u, c') → Outer frame (fun _ => False) c →
      Confined frame c.depth (fun _ => False) c c'
  | .int value _, _, c, _, _, h, _ => by
      cases h
      exact push_confined c value (by decide) rfl
  | .string value _, frame, c, _, _, h, _ => by
      obtain ⟨index, strings, -, -, -, rfl⟩ := string_inv h
      have hc : Confined frame c.depth _ { c with strings } _ :=
        push_confined { c with strings } (Int64.ofNat index)
          (by decide : Op.pushString.operand ≠ .label) rfl
      exact ⟨hc.code, hc.labels, hc.fine, hc.loops⟩
  | .bool value _, _, c, _, _, h, _ => by
      cases h
      exact push_confined c _ (by decide) rfl
  | .unit _, _, c, _, _, h, _ => by
      cases h
      exact push_confined c 0 (by decide) rfl
  | .var slot _, _, c, _, _, h, _ => by
      cases h
      exact push_confined c _ (by decide) rfl
  | .assign slot value _, _, c, _, _, h, ho => by
      obtain ⟨c₁, hv, rfl⟩ := assign_inv h
      have hd := (expr_lays value hv).depth
      exact (expr_confined value hv ho).emit ho _ (by decide) (.inl (Nat.le_of_eq hd.symm))
  | .unary op operand _, _, c, _, _, h, ho => by
      obtain ⟨c₁, hv, rfl⟩ := unary_inv h
      have hd := (expr_lays operand hv).depth
      obtain ⟨hpops, hlabel⟩ := unaryOp_pops op
      exact (expr_confined operand hv ho).emit ho 0 hlabel (.inl (by omega))
  | .binary op left right _, _, c, _, _, h, ho => by
      obtain ⟨c₁, c₂, hleft, hright, rfl⟩ := binary_inv h
      have hl := expr_lays left hleft
      have hr := expr_lays right hright
      have hd₁ := hl.depth
      have hd₂ := hr.depth
      obtain ⟨hpops, hlabel⟩ := binaryOp_pops op left.tag
      have ho₁ := ho.mono (fun _ => id) hl.grows.labels (by omega)
      have hk := (expr_confined right hright ho₁).mono (by omega : c.depth ≤ c₁.depth) fun _ => id
      exact ((expr_confined left hleft ho).trans hk ho).emit ho 0 hlabel (.inl (by omega))
  | .block stmts _, _, _, _, _, h, ho => body_confined stmts h ho
  | .choice cond stmts others _, frame, c, _, _, h, ho => by
      obtain ⟨c₁, c₂, c₃, hc, hb, hbs, rfl⟩ := choice_inv h
      have hlc := expr_lays cond hc
      have hlb := body_lays stmts hb
      have hlo := branches_lays others hbs rfl
      have hd : (c₁.emitAt .jumpFalse (c.labels + 1)).depth = c.depth := by
        rw [Context.depth_emitAt, hlc.depth]
        rfl
      have hd₃ : c₃.depth = c.depth + 1 := hlo.depth
      have hl₁ : (c.withLabels 2).labels ≤ c₁.labels := hlc.grows.labels
      have hl₂ : c₁.labels ≤ c₂.labels := hlb.grows.labels
      have ho' : Outer frame (fun l => l = c.labels ∨ l = c.labels + 1) (c.withLabels 2) :=
        ho.withLabels fun l hl => .inr (by omega)
      have hon : Outer frame (fun _ => False) (c.withLabels 2) := ho.withLabels fun _ => .inl
      have harm := Confined.arm ho' (.inl rfl) (.inr rfl) (expr_confined cond hc hon) hlc.depth
        (body_confined stmts hb (hon.mono (fun _ => id) hl₁ (Nat.le_of_eq hd.symm))) hlb.depth
      have hrest := branches_confined others hbs rfl
        (ho'.mono (fun _ => .inl) (Nat.le_trans hl₁ hl₂) (Nat.le_refl _))
      have hk := harm.trans (hrest.mono (Nat.le_refl _) fun _ => .inl) ho'
      have hk := hk.emitAt ho' (rfl : Op.label.operand = _) (hd₃ ▸ Nat.le_succ _) (.inl rfl)
      exact (hk.withDepth _).absorb fun l hl => .inr (by omega)
  | .loop cond stmts _, frame, c, _, _, h, ho => by
      obtain ⟨c₁, c₂, hc, hb, rfl⟩ := loop_inv h
      have hlc := expr_lays cond hc
      have hlb := body_lays stmts hb
      have hd₁ : c₁.depth = c.depth + 1 := hlc.depth
      have hd : (c₁.emitAt .jumpFalse (c.labels + 1)).depth = c.depth := by
        rw [Context.depth_emitAt, hd₁]
        rfl
      have hl₁ : c.labels + 2 ≤ c₁.labels := hlc.grows.labels
      have ho' : Outer frame (fun l => l = c.labels ∨ l = c.labels + 1) (c.withLabels 2) :=
        ho.withLabels fun l hl => .inr (by omega)
      have hoc : Outer frame (fun _ => False) ((c.withLabels 2).emitAt .label c.labels) :=
        ho'.mono (fun _ => False.elim) (Nat.le_refl _) (Nat.le_refl _)
      have hob : Outer (some c.loopFrame) (fun _ => False) (c₁.emitAt .jumpFalse (c.labels + 1)) := by
        refine ⟨fun f hf => ?_, fun _ => False.elim⟩
        cases hf
        exact ⟨hl₁, Nat.le_of_succ_le hl₁, Nat.le_of_eq hd.symm⟩
      have hk : Confined frame c.depth (fun l => l = c.labels ∨ l = c.labels + 1) (c.withLabels 2)
          ((c.withLabels 2).emitAt .label c.labels) :=
        .single (.label rfl (Nat.le_refl _) (.inl rfl))
      have hk := hk.trans ((expr_confined cond hc hoc).mono (Nat.le_refl _) fun _ => False.elim) ho'
      have hk := hk.emitAt ho' (rfl : Op.jumpFalse.operand = _) (Nat.le_of_eq hd₁.symm) (.inr rfl)
      have hkb : Confined frame c.depth (fun l => l = c.labels ∨ l = c.labels + 1) _ c₂ :=
        ((body_confined stmts hb hob).mono (Nat.le_of_eq hd.symm) fun _ => id).reframe
          (.inr rfl) (.inl rfl)
      refine Confined.closeLoop (fun f hf => ?_) ho' (hk.trans hkb ho') (by rw [hlb.depth, hd]) ?_
      · exact ⟨(ho.frame f hf).1, (ho.frame f hf).2.1⟩
      · have hgrows := (hlc.grows.emitAt (c.labels + 1) (by decide : Op.jumpFalse ≠ .label)).trans
          hlb.grows
        exact getElem?_of_prefix hgrows.code ((c.withLabels 2).getElem?_emit .label _)

/-- The code of the later branches also jumps to the end of the choice, whose label is given to it. -/
theorem branches_confined : ∀ (b : Branches .resolved) {frame : Option LoopFrame}
    {base finish : Nat} {c c' : Context} {u : Unit}, branches frame base finish b c = .ok (u, c') →
      c.depth = base → Outer frame (· = finish) c → Confined frame base (· = finish) c c'
  | .done, _, _, _, c, _, _, h, rfl, _ => by
      cases h
      exact (push_confined c 0 (by decide) rfl).mono (Nat.le_refl _) fun _ => False.elim
  | .otherwise stmts, _, _, _, c, _, _, h, rfl, ho => by
      refine (body_confined stmts h ?_).mono (Nat.le_refl _) fun _ => False.elim
      exact ho.mono (fun _ => False.elim) (Nat.le_refl _) (Nat.le_refl _)
  | .orIf cond stmts others, frame, _, finish, c, c', _, h, rfl, ho => by
      obtain ⟨c₁, c₂, hc, hb, hbs⟩ := orIf_inv h
      have hlc := expr_lays cond hc
      have hlb := body_lays stmts hb
      have hd : (c₁.emitAt .jumpFalse c.labels).depth = c.depth := by
        rw [Context.depth_emitAt, hlc.depth]
        rfl
      have hl₁ : (c.withLabels 1).labels ≤ c₁.labels := hlc.grows.labels
      have hl₂ : c₁.labels ≤ c₂.labels := hlb.grows.labels
      have ho' : Outer frame (fun l => l = finish ∨ l = c.labels) (c.withLabels 1) :=
        ho.withLabels fun l hl => hl.imp_right (by omega)
      have hon : Outer frame (fun _ => False) (c.withLabels 1) := ho.withLabels fun _ => False.elim
      have harm := Confined.arm ho' (.inl rfl) (.inr rfl) (expr_confined cond hc hon) hlc.depth
        (body_confined stmts hb (hon.mono (fun _ => id) hl₁ (Nat.le_of_eq hd.symm))) hlb.depth
      have hrest := branches_confined others hbs rfl
        (ho'.mono (fun _ => .inl) (Nat.le_trans hl₁ hl₂) (Nat.le_refl _))
      have hk := harm.trans (hrest.mono (Nat.le_refl _) fun _ => .inl) ho'
      exact hk.absorb fun l hl => hl.imp_right (by omega)

theorem body_confined : ∀ (stmts : List (Stmt .resolved)) {frame : Option LoopFrame}
    {c c' : Context} {u : Unit}, body frame stmts c = .ok (u, c') → Outer frame (fun _ => False) c →
      Confined frame c.depth (fun _ => False) c c'
  | [], _, c, _, _, h, _ => by
      cases h
      exact push_confined c 0 (by decide) rfl
  | [s], _, c, _, _, h, ho => stmt_confined s (body_one_inv h) ho
  | s :: next :: rest, _, c, _, _, h, ho => by
      obtain ⟨c₁, hs, hr⟩ := body_cons_inv h
      have hl := stmt_lays s hs
      have hd : (c₁.emit .pop 0).depth = c.depth := by
        rw [Context.depth_emit, hl.depth]
        rfl
      have ho₁ : Outer _ _ (c₁.emit .pop 0) :=
        ho.mono (fun _ => id) hl.grows.labels (Nat.le_of_eq hd.symm)
      have hk := (body_confined (next :: rest) hr ho₁).mono (Nat.le_of_eq hd.symm) fun _ => id
      exact ((stmt_confined s hs ho).emit ho 0 (by decide) (.inr rfl)).trans hk ho

/-- The code of a statement is confined; `break` and `continue` name the labels of the loop around it. -/
theorem stmt_confined : ∀ (s : Stmt .resolved) {frame : Option LoopFrame} {c c' : Context}
    {u : Unit}, stmt frame s c = .ok (u, c') → Outer frame (fun _ => False) c →
      Confined frame c.depth (fun _ => False) c c'
  | .declare _ slot init _, _, c, _, _, h, ho => by
      obtain ⟨c₁, hi, rfl⟩ := declare_inv h
      have hd := (expr_lays init hi).depth
      have hk : Confined _ c.depth _ c (c₁.emitAt .declare slot) :=
        (expr_confined init hi ho).emit ho _ (by decide) (.inl (Nat.le_of_eq hd.symm))
      refine hk.emit ho 0 (by decide) (.inl ?_)
      show c.depth + 0 ≤ c₁.depth + 0 - 1
      omega
  | .write newline value _ _, _, c, _, _, h, ho => by
      obtain ⟨c₁, hv, rfl⟩ := write_inv h
      have hd := (expr_lays value hv).depth
      have hop : (if newline then Op.writeln else .write).operand ≠ .label ∧
          (if newline then Op.writeln else .write).pops = 1 ∧
          (if newline then Op.writeln else .write).pushes = 0 := by
        cases newline <;> decide
      have hk := (expr_confined value hv ho).emit ho 0 hop.1 (.inl (by omega))
      refine hk.emit ho 0 (by decide) (.inl ?_)
      show c.depth + 0 ≤ c₁.depth + _ - _
      omega
  | .leave _, _, c, _, _, h, ho => by
      obtain ⟨f, hf, rfl⟩ := leave_inv h
      exact .jumpedOut ho hf (.inl rfl)
  | .again _, _, c, _, _, h, ho => by
      obtain ⟨f, hf, rfl⟩ := again_inv h
      exact .jumpedOut ho hf (.inr rfl)
  | .expr value _, _, _, _, _, h, ho => expr_confined value h ho

end

/-- The code of a program names its own labels only, since there is no loop around it. -/
theorem program_confined : ∀ (program : Body .resolved) {c c' : Context} {u : Unit},
    Emit.program program c = .ok (u, c') → Confined none c.depth (fun _ => False) c c'
  | [], c, _, _, h => by
      cases h
      exact .refl c
  | s :: rest, c, _, _, h => by
      obtain ⟨c₁, hs, hr⟩ := program_cons_inv h
      have hd : (c₁.emit .pop 0).depth = c.depth := by
        rw [Context.depth_emit, (stmt_lays s hs).depth]
        rfl
      have ho : Outer none (fun _ => False) c := ⟨(fun _ hf => nomatch hf), fun _ => False.elim⟩
      have hk := (program_confined rest hr).mono (Nat.le_of_eq hd.symm) fun _ => id
      exact ((stmt_confined s hs ho).emit ho 0 (by decide) (.inr rfl)).trans hk ho

/-- Every loop of a program is a span of its code. -/
theorem program_spans {program : Body .resolved} {c : Context} (h : Emit.program program {} = .ok ((), c))
    {loop : LoopSpan} (hloop : loop ∈ c.loops) :
    ∃ around hi, Span 0 0 c.code.toList c.labels loop around hi := by
  rcases (program_confined program h).loops loop hloop with hold | hspan
  · cases Array.not_mem_empty _ hold
  · exact hspan

end Emit

end BlockLang

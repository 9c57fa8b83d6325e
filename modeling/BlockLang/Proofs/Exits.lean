import BlockLang.Proofs.Layout

/-! The jumps of loops. The `break` and `continue` statements of a tree belong to the nearest loop around
them, so a tree tells how many of either each of its loops has. The code of the tree is held against this
count: every loop leaves one record behind, in the order in which the loops end, and the jumps to the two
labels of a record are those of the statements that belong to the loop, with the one that ends each round. -/

namespace BlockLang

/-- How often a loop is left, and how often it is taken back to its start. -/
structure Exits where
  leaves : Nat := 0
  agains : Nat := 0
  deriving DecidableEq, Repr

/-- The exits of a tree that belong to the loop around it, and those of each loop in it, in the order in
which the loops end. -/
structure ExitCount where
  own : Exits := {}
  loops : List Exits := []
  deriving DecidableEq, Repr

namespace ExitCount

/-- The exits of two trees, one behind the other. -/
def and (n k : ExitCount) : ExitCount :=
  ⟨⟨n.own.leaves + k.own.leaves, n.own.agains + k.own.agains⟩, n.loops ++ k.loops⟩

/-- The exits of a body, seen from outside of the loop whose body it is. -/
def enclosed (n : ExitCount) : ExitCount := { loops := n.loops ++ [n.own] }

theorem and_empty (n : ExitCount) : n.and {} = n := by
  simp [and]

theorem empty_and (n : ExitCount) : ExitCount.and {} n = n := by
  simp [and]

end ExitCount

mutual

def Expr.exits : Expr .resolved → ExitCount
  | .int _ _ | .string _ _ | .bool _ _ | .unit _ | .var _ _ => {}
  | .assign _ value _ => value.exits
  | .unary _ operand _ => operand.exits
  | .binary _ left right _ => left.exits.and right.exits
  | .block body _ => Body.exits body
  | .choice cond body others _ => (cond.exits.and (Body.exits body)).and others.exits
  | .loop cond body _ => cond.exits.and (Body.exits body).enclosed

def Branches.exits : Branches .resolved → ExitCount
  | .done => {}
  | .otherwise body => Body.exits body
  | .orIf cond body others => (cond.exits.and (Body.exits body)).and others.exits

def Body.exits : List (Stmt .resolved) → ExitCount
  | [] => {}
  | s :: rest => s.exits.and (Body.exits rest)

def Stmt.exits : Stmt .resolved → ExitCount
  | .declare _ _ init _ => init.exits
  | .write _ value _ _ => value.exits
  | .leave _ => { own := { leaves := 1 } }
  | .again _ => { own := { agains := 1 } }
  | .expr value _ => value.exits

end

/-- How often the labels of a loop occur among the targets of jumps. -/
def LoopFrame.exits (f : LoopFrame) (targets : List Nat) : Exits :=
  ⟨targets.count f.leave, targets.count f.again⟩

def exitsOf : Option LoopFrame → List Nat → Exits
  | none, _ => {}
  | some f, targets => f.exits targets

/-- A label that the code of a node may name but does not take: one of the loop around the node, or one
that is handed to it. -/
def Handed (frame : Option LoopFrame) (extra : Nat → Prop) (l : Nat) : Prop :=
  extra l ∨ ∃ f, frame = some f ∧ (l = f.leave ∨ l = f.again)

/-- Jumps and loops against the exits of a tree whose own labels are `ours`. -/
structure Counts (frame : Option LoopFrame) (extra ours : Nat → Prop) (targets : List Nat)
    (loops : List LoopSpan) (n : ExitCount) : Prop where
  named : ∀ l ∈ targets, Handed frame extra l ∨ ours l
  fresh : ∀ loop ∈ loops, ours loop.frame.leave ∧ ours loop.frame.again
  own : exitsOf frame targets = n.own
  loops : loops.map (fun loop => loop.frame.exits targets) =
    n.loops.map fun x => { x with agains := x.agains + 1 }

theorem LoopFrame.exits_append (f : LoopFrame) (targets more : List Nat) :
    f.exits (targets ++ more) =
      ⟨(f.exits targets).leaves + (f.exits more).leaves, (f.exits targets).agains + (f.exits more).agains⟩ :=
  congrArg₂ Exits.mk List.count_append List.count_append

theorem LoopFrame.exits_eq_zero {f : LoopFrame} {targets : List Nat} (hleave : f.leave ∉ targets)
    (hagain : f.again ∉ targets) : f.exits targets = {} :=
  congrArg₂ Exits.mk (List.count_eq_zero.mpr hleave) (List.count_eq_zero.mpr hagain)

theorem LoopFrame.exits_append_left {f : LoopFrame} {more : List Nat} (targets : List Nat)
    (hleave : f.leave ∉ more) (hagain : f.again ∉ more) : f.exits (targets ++ more) = f.exits targets := by
  rw [exits_append, exits_eq_zero hleave hagain]
  rfl

theorem LoopFrame.exits_append_right {f : LoopFrame} {targets : List Nat} (more : List Nat)
    (hleave : f.leave ∉ targets) (hagain : f.again ∉ targets) : f.exits (targets ++ more) = f.exits more := by
  rw [exits_append, exits_eq_zero hleave hagain, Nat.zero_add, Nat.zero_add]

/-- Jumps that name no label of the loop around are none of its exits. -/
theorem exitsOf_eq_zero {frame : Option LoopFrame} {targets : List Nat}
    (h : ∀ l ∈ targets, ¬Handed frame (fun _ => False) l) : exitsOf frame targets = {} := by
  cases frame with
  | none => rfl
  | some f =>
      refine LoopFrame.exits_eq_zero (fun hmem => h _ hmem ?_) fun hmem => h _ hmem ?_
      · exact .inr ⟨f, rfl, .inl rfl⟩
      · exact .inr ⟨f, rfl, .inr rfl⟩

namespace Counts

variable {frame : Option LoopFrame} {extra extra' ours ours' : Nat → Prop} {targets targets' : List Nat}
  {loops loops' : List LoopSpan} {n n' : ExitCount}

theorem empty : Counts frame extra ours [] [] {} :=
  ⟨List.forall_mem_nil _, List.forall_mem_nil _, exitsOf_eq_zero (List.forall_mem_nil _), rfl⟩

theorem mono (h : Counts frame extra ours targets loops n) (hours : ∀ l, ours l → ours' l)
    (hextra : ∀ l, extra l → extra' l ∨ ours' l) : Counts frame extra' ours' targets loops n := by
  refine ⟨fun l hl => ?_, fun loop hloop => ?_, h.own, h.loops⟩
  · rcases h.named l hl with (hl | hl) | hl
    · exact (hextra l hl).imp_left .inl
    · exact .inl (.inr hl)
    · exact .inr (hours l hl)
  · exact (h.fresh loop hloop).imp (hours _) (hours _)

theorem notMem {l : Nat} (h : Counts frame extra ours targets loops n) (hl : ¬Handed frame extra l)
    (hours : ¬ours l) : l ∉ targets :=
  fun hmem => (h.named l hmem).elim hl hours

/-- Two trees that share no label but those that are handed to both. -/
theorem append (h : Counts frame extra ours targets loops n)
    (h' : Counts frame extra ours' targets' loops' n') (hapart : ∀ l, ours l → ¬ours' l)
    (hnew : ∀ l, ours l ∨ ours' l → ¬Handed frame extra l) :
    Counts frame extra (fun l => ours l ∨ ours' l) (targets ++ targets') (loops ++ loops') (n.and n') := by
  refine ⟨fun l hl => ?_, fun loop hloop => ?_, ?_, ?_⟩
  · rcases List.mem_append.mp hl with hl | hl
    · exact (h.named l hl).imp_right .inl
    · exact (h'.named l hl).imp_right .inr
  · rcases List.mem_append.mp hloop with hloop | hloop
    · exact (h.fresh loop hloop).imp .inl .inl
    · exact (h'.fresh loop hloop).imp .inr .inr
  · rw [ExitCount.and, ← h.own, ← h'.own]
    cases frame with
    | none => rfl
    | some f => exact f.exits_append targets targets'
  · rw [ExitCount.and, List.map_append, List.map_append, ← h.loops, ← h'.loops]
    refine congrArg₂ _ (List.map_congr_left fun loop hloop => ?_) (List.map_congr_left fun loop hloop => ?_)
    · obtain ⟨hleave, hagain⟩ := h.fresh loop hloop
      exact LoopFrame.exits_append_left targets (h'.notMem (hnew _ (.inl hleave)) (hapart _ hleave))
        (h'.notMem (hnew _ (.inl hagain)) (hapart _ hagain))
    · obtain ⟨hleave, hagain⟩ := h'.fresh loop hloop
      exact LoopFrame.exits_append_right targets'
        (h.notMem (hnew _ (.inr hleave)) fun hl => hapart _ hl hleave)
        (h.notMem (hnew _ (.inr hagain)) fun hl => hapart _ hl hagain)

/-- A jump to a label that the code is handed from within the tree around it. -/
theorem inner {l : Nat} (hl : extra l) (hframe : ¬Handed frame (fun _ => False) l) :
    Counts frame extra ours [l] [] {} := by
  refine ⟨fun l' hl' => .inl (.inl (List.mem_singleton.mp hl' ▸ hl)), List.forall_mem_nil _, ?_, rfl⟩
  exact exitsOf_eq_zero fun l' hl' => List.mem_singleton.mp hl' ▸ hframe

/-- A loop, from its body: the jump that ends a round is added, and the record of the loop. -/
theorem enclose (loop : LoopSpan) (h : Counts (some loop.frame) (fun _ => False) ours targets loops n)
    (hne : loop.frame.leave ≠ loop.frame.again)
    (hframe : ∀ l, ours l → l ≠ loop.frame.leave ∧ l ≠ loop.frame.again)
    (hnew : ∀ l, l = loop.frame.leave ∨ l = loop.frame.again ∨ ours l → ¬Handed frame (fun _ => False) l) :
    Counts frame (fun _ => False) (fun l => l = loop.frame.leave ∨ l = loop.frame.again ∨ ours l)
      (targets ++ [loop.frame.again]) (loops ++ [loop]) n.enclosed := by
  have hall : ∀ l ∈ targets ++ [loop.frame.again], l = loop.frame.leave ∨ l = loop.frame.again ∨ ours l := by
    intro l hl
    rcases List.mem_append.mp hl with hl | hl
    · rcases h.named l hl with (hl | ⟨_, ⟨⟩, hl⟩) | hl
      · exact hl.elim
      · exact hl.imp_right .inl
      · exact .inr (.inr hl)
    · exact .inr (.inl (List.mem_singleton.mp hl))
  refine ⟨fun l hl => .inr (hall l hl), fun other hother => ?_,
    exitsOf_eq_zero fun l hl => hnew l (hall l hl), ?_⟩
  · rcases List.mem_append.mp hother with hother | hother
    · exact (h.fresh other hother).imp (.inr ∘ .inr) (.inr ∘ .inr)
    · rw [List.mem_singleton.mp hother]
      exact ⟨.inl rfl, .inr (.inl rfl)⟩
  · have hlast : loop.frame.exits (targets ++ [loop.frame.again]) =
        { n.own with agains := n.own.agains + 1 } := by
      rw [LoopFrame.exits_append, ← h.own]
      simp [LoopFrame.exits, exitsOf, hne.symm]
    rw [ExitCount.enclosed, List.map_append, List.map_append, ← h.loops, List.map_singleton,
      List.map_singleton, hlast]
    refine congrArg (· ++ _) (List.map_congr_left fun other hother => ?_)
    obtain ⟨hleave, hagain⟩ := h.fresh other hother
    exact LoopFrame.exits_append_left targets
      (fun hmem => (hframe _ hleave).2 (List.mem_singleton.mp hmem))
      fun hmem => (hframe _ hagain).2 (List.mem_singleton.mp hmem)

end Counts

namespace Context

def jumpArgs (c : Context) : List Int64 :=
  (c.code.toList.filter (·.instr.op? = some .jump)).map (·.instr.arg)

theorem count_jumpArgs (c : Context) (arg : Int64) :
    c.jumpArgs.count arg = (c.code.toList.map (·.instr)).count (Instr.of .jump arg) := by
  rw [jumpArgs, List.count_eq_countP, List.countP_map, List.countP_filter, List.count_eq_countP,
    List.countP_map]
  refine List.countP_congr fun x _ => ?_
  simp only [Function.comp, Bool.and_eq_true, beq_iff_eq, decide_eq_true_eq]
  refine ⟨fun ⟨harg, hop⟩ => harg ▸ Instr.eq_of_op? hop, fun hx => ?_⟩
  rw [hx]
  exact ⟨rfl, Instr.op?_of _ _⟩

theorem jumpArgs_emit (c : Context) {op : Op} (arg : Int64) (hop : op ≠ .jump) :
    (c.emit op arg).jumpArgs = c.jumpArgs := by
  have hne : (Instr.of op arg).op? ≠ some .jump := by
    rw [Instr.op?_of]
    exact fun h => hop (Option.some.inj h)
  rw [jumpArgs, toList_emit, List.filter_append, List.filter_singleton, decide_eq_false hne, cond_false,
    List.append_nil, jumpArgs]

theorem jumpArgs_emitAt (c : Context) {op : Op} (index : Nat) (hop : op ≠ .jump) :
    (c.emitAt op index).jumpArgs = c.jumpArgs :=
  c.jumpArgs_emit _ hop

theorem jumpArgs_jump (c : Context) (l : Nat) :
    (c.emitAt .jump l).jumpArgs = c.jumpArgs ++ [Int64.ofNat l] := by
  rw [jumpArgs, emitAt, toList_emit, List.filter_append, List.map_append, jumpArgs]
  rfl

theorem jumpArgs_closeLoop (c : Context) (f : LoopFrame) (first : Nat) :
    (c.closeLoop f first).jumpArgs = c.jumpArgs ++ [Int64.ofNat f.again] := by
  let d := ((c.emit .pop 0).emitAt .jump f.again).withLoop f first
  have hd : d.jumpArgs = c.jumpArgs ++ [Int64.ofNat f.again] := by
    show ((c.emit .pop 0).emitAt .jump f.again).jumpArgs = _
    rw [jumpArgs_jump, jumpArgs_emit c 0 (by decide)]
  have hlabel := d.jumpArgs_emitAt f.leave (by decide : Op.label ≠ .jump)
  exact (((d.emitAt .label f.leave).withDepth f.depth).jumpArgs_emit 0 (by decide)).trans (hlabel.trans hd)

theorem loops_closeLoop (c : Context) (f : LoopFrame) (first : Nat) :
    ∃ last, (c.closeLoop f first).loops.toList = c.loops.toList ++ [⟨f, first, last⟩] :=
  ⟨_, Array.toList_push⟩

end Context

/-- What a node is emitted into: the labels of the loop around it differ, and the labels that will be taken
next are handed to it by nobody. -/
structure Around (frame : Option LoopFrame) (extra : Nat → Prop) (c : Context) : Prop where
  distinct : ∀ f, frame = some f → f.leave ≠ f.again
  vacant : ∀ l, c.labels ≤ l → ¬Handed frame extra l

/-- The jumps and the loops that have been added for a tree are those that it counts. -/
structure Tallies (frame : Option LoopFrame) (extra : Nat → Prop) (c c' : Context) (n : ExitCount) :
    Prop where
  labels : c.labels ≤ c'.labels
  counts : ∃ targets loops, c'.jumpArgs = c.jumpArgs ++ targets.map Int64.ofNat ∧
    c'.loops.toList = c.loops.toList ++ loops ∧
    Counts frame extra (fun l => c.labels ≤ l ∧ l < c'.labels) targets loops n

theorem Around.mono {frame : Option LoopFrame} {extra extra' : Nat → Prop} {c c' : Context}
    (h : Around frame extra c) (hextra : ∀ l, extra' l → extra l) (hlabels : c.labels ≤ c'.labels) :
    Around frame extra' c' :=
  ⟨h.distinct, fun l hl hhanded => h.vacant l (Nat.le_trans hlabels hl) (hhanded.imp_left (hextra l))⟩

theorem Around.withLabels {frame : Option LoopFrame} {extra extra' : Nat → Prop} {c : Context} {k : Nat}
    (h : Around frame extra c) (hextra : ∀ l, extra' l → extra l ∨ l < c.labels + k) :
    Around frame extra' (c.withLabels k) := by
  refine ⟨h.distinct, fun l hl hhanded => ?_⟩
  have hl : c.labels + k ≤ l := hl
  refine h.vacant l (by omega) (hhanded.imp_left fun hx => (hextra l hx).resolve_right (by omega))

theorem Around.outermost (c : Context) : Around none (fun _ => False) c := by
  refine ⟨?_, ?_⟩
  · rintro _ ⟨⟩
  · rintro _ _ (hl | ⟨_, ⟨⟩, _⟩)
    exact hl

/-- The body of a loop sees the labels of the loop and no others. -/
theorem Around.loopFrame {c c₁ : Context} (hlabels : c.labels + 2 ≤ c₁.labels) :
    Around (some c.loopFrame) (fun _ => False) c₁ := by
  refine ⟨fun f hf => ?_, fun l hl hhanded => ?_⟩
  · cases hf
    exact Nat.succ_ne_self _
  · obtain hl' | ⟨f, ⟨⟩, hl' | hl'⟩ := hhanded
    · exact hl'
    · have hl' : l = c.labels + 1 := hl'
      omega
    · have hl' : l = c.labels := hl'
      omega

namespace Tallies

variable {frame : Option LoopFrame} {extra extra' : Nat → Prop} {c c' c₁ c₂ : Context} {n n' : ExitCount}

theorem refl (c : Context) : Tallies frame extra c c {} :=
  ⟨Nat.le_refl _, [], [], (List.append_nil _).symm, (List.append_nil _).symm, .empty⟩

theorem mono (h : Tallies frame extra c c' n) (hextra : ∀ l, extra l → extra' l) :
    Tallies frame extra' c c' n := by
  obtain ⟨hlabels, targets, loops, hjumps, hloops, hcounts⟩ := h
  exact ⟨hlabels, targets, loops, hjumps, hloops, hcounts.mono (fun _ => id) fun l hl => .inl (hextra l hl)⟩

theorem trans (h : Tallies frame extra c c₁ n) (h' : Tallies frame extra c₁ c₂ n')
    (ha : Around frame extra c) : Tallies frame extra c c₂ (n.and n') := by
  obtain ⟨hlabels, targets, loops, hjumps, hloops, hcounts⟩ := h
  obtain ⟨hlabels', targets', loops', hjumps', hloops', hcounts'⟩ := h'
  refine ⟨Nat.le_trans hlabels hlabels', targets ++ targets', loops ++ loops', ?_, ?_, ?_⟩
  · rw [hjumps', hjumps, List.map_append, List.append_assoc]
  · rw [hloops', hloops, List.append_assoc]
  · refine (hcounts.append hcounts' (fun l hl hl' => ?_) fun l hl => ha.vacant l ?_).mono (fun l hl => ?_)
      fun _ => .inl
    all_goals omega

theorem emit (h : Tallies frame extra c c₁ n) {op : Op} (arg : Int64) (hop : op ≠ .jump) :
    Tallies frame extra c (c₁.emit op arg) n := by
  obtain ⟨hlabels, targets, loops, hjumps, hloops, hcounts⟩ := h
  exact ⟨hlabels, targets, loops, (c₁.jumpArgs_emit arg hop).trans hjumps, hloops, hcounts⟩

theorem withDepth (h : Tallies frame extra c c₁ n) (d : Nat) : Tallies frame extra c (c₁.withDepth d) n :=
  ⟨h.labels, h.counts⟩

theorem dropped (h : Tallies frame extra c c₁ n) (k : Nat) : Tallies frame extra c (c₁.dropped k) n := by
  induction k generalizing c₁ with
  | zero => exact h
  | succ k ih => exact ih (h.emit 0 (by decide))

/-- A jump to a label that is handed to the code from within the tree around it. -/
theorem jump (h : Tallies frame extra c c₁ n) (ha : Around frame extra c) {l : Nat} (hl : extra l)
    (hframe : ¬Handed frame (fun _ => False) l) : Tallies frame extra c (c₁.emitAt .jump l) n := by
  have hjump : Tallies frame extra c₁ (c₁.emitAt .jump l) {} :=
    ⟨Nat.le_refl _, [l], [], c₁.jumpArgs_jump l, (List.append_nil _).symm, .inner hl hframe⟩
  exact n.and_empty ▸ h.trans hjump ha

/-- Labels that were taken in front of the code are the tree's own. -/
theorem absorb {k : Nat} (h : Tallies frame extra (c.withLabels k) c' n)
    (hextra : ∀ l, extra l → extra' l ∨ c.labels ≤ l ∧ l < c.labels + k) :
    Tallies frame extra' c c' n := by
  obtain ⟨hlabels, targets, loops, hjumps, hloops, hcounts⟩ := h
  have hlabels : c.labels + k ≤ c'.labels := hlabels
  refine ⟨by omega, targets, loops, hjumps, hloops, hcounts.mono (fun l hl => ?_) fun l hl => ?_⟩
  · have hl : c.labels + k ≤ l ∧ l < c'.labels := hl
    omega
  · exact (hextra l hl).imp_right fun hl => by omega

/-- An arm of a choice, from its condition and its body. -/
theorem arm {finish next d : Nat} (ha : Around frame extra c) (hfinish : extra finish)
    (hframe : ¬Handed frame (fun _ => False) finish)
    (hcond : Tallies frame (fun _ => False) c c₁ n)
    (hbody : Tallies frame (fun _ => False) (c₁.emitAt .jumpFalse next) c₂ n') :
    Tallies frame extra c (c₂.closeArm finish next d) (n.and n') := by
  have htest := (hcond.mono fun l => (False.elim : False → extra l)).emit (Int64.ofNat next)
    (by decide : Op.jumpFalse ≠ .jump)
  have harm := htest.trans (hbody.mono fun l => False.elim) ha
  exact ((harm.jump ha hfinish hframe).emit (Int64.ofNat next) (by decide : Op.label ≠ .jump)).withDepth d

/-- A `break` or a `continue` jumps to a label of the loop around it. -/
theorem jumpedOut (ha : Around frame (fun _ => False) c) {f : LoopFrame} {l : Nat} (hf : frame = some f)
    (hl : l = f.leave ∨ l = f.again) :
    Tallies frame (fun _ => False) c (c.jumpedOut f l) { own := f.exits [l] } := by
  subst hf
  have hjump : ∀ d : Context, Tallies (some f) (fun _ => False) d (d.emitAt .jump l) { own := f.exits [l] } := by
    refine fun d => ⟨Nat.le_refl _, [l], [], d.jumpArgs_jump l, (List.append_nil _).symm, ?_⟩
    refine ⟨fun l' hl' => .inl (.inr ⟨f, rfl, ?_⟩), List.forall_mem_nil _, rfl, rfl⟩
    rwa [List.mem_singleton.mp hl']
  have hall := (((refl c).dropped (c.depth - f.depth)).trans (hjump _) ha).withDepth (c.depth + 1)
  rwa [ExitCount.empty_and] at hall

/-- The body of a loop, with the labels of the loop and its record. -/
theorem around_body {targets : List Nat} {loops : List LoopSpan} (ha : Around frame (fun _ => False) c)
    (hlabels : c.labels + 2 ≤ c₁.labels) (first last : Nat)
    (hbody : Counts (some c.loopFrame) (fun _ => False) (fun l => c₁.labels ≤ l ∧ l < c₂.labels) targets loops n) :
    Counts frame (fun _ => False)
      (fun l => l = c.labels + 1 ∨ l = c.labels ∨ c₁.labels ≤ l ∧ l < c₂.labels) (targets ++ [c.labels])
      (loops ++ [⟨c.loopFrame, first, last⟩]) n.enclosed := by
  refine hbody.enclose ⟨c.loopFrame, first, last⟩ (Nat.succ_ne_self _) (fun l hl => ?_) fun l hl => ha.vacant l ?_
  · show l ≠ c.labels + 1 ∧ l ≠ c.labels
    omega
  · have hl : l = c.labels + 1 ∨ l = c.labels ∨ c₁.labels ≤ l ∧ l < c₂.labels := hl
    omega

/-- A loop is closed: its body was emitted with the labels that its record has. -/
theorem closeLoop (ha : Around frame (fun _ => False) c)
    (hcond : Tallies frame (fun _ => False) (c.withLabels 2) c₁ n)
    (hbody : Tallies (some c.loopFrame) (fun _ => False) (c₁.emitAt .jumpFalse (c.labels + 1)) c₂ n') :
    Tallies frame (fun _ => False) c (c₂.closeLoop c.loopFrame c.code.size) (n.and n'.enclosed) := by
  obtain ⟨hlabels, targets, loops, hjumps, hloops, hcounts⟩ := hcond
  obtain ⟨hlabels', targets', loops', hjumps', hloops', hcounts'⟩ := hbody
  obtain ⟨last, hlast⟩ := c₂.loops_closeLoop c.loopFrame c.code.size
  have hl₁ : c.labels + 2 ≤ c₁.labels := hlabels
  have hl₂ : c₁.labels ≤ c₂.labels := hlabels'
  have hcond : ∀ l, (c.withLabels 2).labels ≤ l ∧ l < c₁.labels ↔ c.labels + 2 ≤ l ∧ l < c₁.labels :=
    fun _ => Iff.rfl
  have hloop := around_body ha hl₁ c.code.size last hcounts'
  refine ⟨by show c.labels ≤ c₂.labels; omega, targets ++ (targets' ++ [c.labels]),
    loops ++ (loops' ++ [⟨c.loopFrame, c.code.size, last⟩]), ?_, ?_, ?_⟩
  · rw [c₂.jumpArgs_closeLoop, hjumps', c₁.jumpArgs_emitAt _ (by decide), hjumps, List.map_append,
      List.map_append, List.append_assoc, List.append_assoc]
    rfl
  · have hbefore : (c₁.emitAt .jumpFalse (c.labels + 1)).loops.toList = c.loops.toList ++ loops := hloops
    rw [hlast, hloops', hbefore, List.append_assoc, List.append_assoc]
  · refine (hcounts.append hloop (fun l hl hl' => ?_) fun l hl => ha.vacant l ?_).mono (fun l hl => ?_)
      fun _ => .inl
    · rw [hcond] at hl
      omega
    · rw [hcond] at hl
      omega
    · rw [hcond] at hl
      show c.labels ≤ l ∧ l < c₂.labels
      omega

end Tallies

namespace Emit

mutual

/-- The code of an expression has one jump for each `break` and `continue` in it, and one record for each loop. -/
theorem expr_tallies : ∀ (e : Expr .resolved) {frame : Option LoopFrame} {c c' : Context} {u : Unit},
    expr frame e c = .ok (u, c') → Around frame (fun _ => False) c →
      Tallies frame (fun _ => False) c c' e.exits
  | .int _ _, _, c, _, _, h, _ | .bool _ _, _, c, _, _, h, _ | .unit _, _, c, _, _, h, _ => by
      cases h
      exact (Tallies.refl c).emit _ (by decide)
  | .var slot _, _, c, _, _, h, _ => by
      cases h
      exact (Tallies.refl c).emit _ (by decide)
  | .string value _, frame, c, _, _, h, _ => by
      obtain ⟨index, strings, -, -, -, rfl⟩ := string_inv h
      have hc : Tallies frame (fun _ => False) { c with strings } _ {} :=
        (Tallies.refl { c with strings }).emit (Int64.ofNat index) (by decide : Op.pushString ≠ .jump)
      exact ⟨hc.labels, hc.counts⟩
  | .assign slot value _, _, c, _, _, h, ha => by
      obtain ⟨c₁, hv, rfl⟩ := assign_inv h
      exact (expr_tallies value hv ha).emit _ (by decide)
  | .unary op operand _, _, c, _, _, h, ha => by
      obtain ⟨c₁, hv, rfl⟩ := unary_inv h
      exact (expr_tallies operand hv ha).emit 0 (by cases op <;> decide)
  | .binary op left right _, _, c, _, _, h, ha => by
      obtain ⟨c₁, c₂, hl, hr, rfl⟩ := binary_inv h
      have hop : ∀ op type, binaryOp op type ≠ .jump := by
        intro op type
        cases op <;> cases type <;> decide
      have hleft := expr_tallies left hl ha
      have hright := expr_tallies right hr (ha.mono (fun _ => id) hleft.labels)
      exact (hleft.trans hright ha).emit 0 (hop op left.tag)
  | .block stmts _, _, _, _, _, h, ha => body_tallies stmts h ha
  | .choice cond stmts others _, frame, c, _, _, h, ha => by
      obtain ⟨c₁, c₂, c₃, hc, hb, hbs, rfl⟩ := choice_inv h
      have hwithin : Around frame (· = c.labels) (c.withLabels 2) := ha.withLabels fun l hl => .inr (by omega)
      have hcond := expr_tallies cond hc (hwithin.mono (fun _ => False.elim) (Nat.le_refl _))
      have hbody := body_tallies stmts hb (hwithin.mono (fun _ => False.elim) hcond.labels)
      have hfinish := ha.vacant c.labels (Nat.le_refl _)
      have harm : Tallies frame (· = c.labels) _ (c₂.closeArm c.labels (c.labels + 1) c.depth) _ :=
        .arm hwithin rfl hfinish hcond hbody
      have hrest := branches_tallies others hbs (hwithin.mono (fun _ => id) harm.labels) hfinish
      have hall := (harm.trans hrest hwithin).emit (Int64.ofNat c.labels) (by decide : Op.label ≠ .jump)
      exact (hall.withDepth _).absorb fun l hl => .inr (by omega)
  | .loop cond stmts _, frame, c, _, _, h, ha => by
      obtain ⟨c₁, c₂, hc, hb, rfl⟩ := loop_inv h
      have hwithin : Around frame (fun _ => False) (c.withLabels 2) := ha.withLabels fun _ => .inl
      have hstart : Tallies frame (fun _ => False) _ ((c.withLabels 2).emitAt .label c.labels) {} :=
        (Tallies.refl (c.withLabels 2)).emit _ (by decide)
      have hcond := hstart.trans (expr_tallies cond hc (hwithin.mono (fun _ => id) hstart.labels)) hwithin
      rw [ExitCount.empty_and] at hcond
      exact .closeLoop ha hcond (body_tallies stmts hb (.loopFrame hcond.labels))

/-- The later branches also jump to the end of the choice, which is no label of a loop. -/
theorem branches_tallies : ∀ (b : Branches .resolved) {frame : Option LoopFrame} {base finish : Nat}
    {c c' : Context} {u : Unit}, branches frame base finish b c = .ok (u, c') →
      Around frame (· = finish) c → ¬Handed frame (fun _ => False) finish →
      Tallies frame (· = finish) c c' b.exits
  | .done, _, _, _, c, _, _, h, _, _ => by
      cases h
      exact (Tallies.refl c).emit 0 (by decide)
  | .otherwise stmts, _, _, _, c, _, _, h, ha, _ =>
      (body_tallies stmts h (ha.mono (fun _ => False.elim) (Nat.le_refl _))).mono fun _ => False.elim
  | .orIf cond stmts others, frame, base, finish, c, c', _, h, ha, hfinish => by
      obtain ⟨c₁, c₂, hc, hb, hbs⟩ := orIf_inv h
      have hwithin : Around frame (· = finish) (c.withLabels 1) := ha.mono (fun _ => id) (Nat.le_succ _)
      have hcond := expr_tallies cond hc (hwithin.mono (fun _ => False.elim) (Nat.le_refl _))
      have hbody := body_tallies stmts hb (hwithin.mono (fun _ => False.elim) hcond.labels)
      have harm : Tallies frame (· = finish) _ (c₂.closeArm finish c.labels base) _ :=
        .arm hwithin rfl hfinish hcond hbody
      have hrest := branches_tallies others hbs (hwithin.mono (fun _ => id) harm.labels) hfinish
      exact (harm.trans hrest hwithin).absorb fun _ => .inl

theorem body_tallies : ∀ (stmts : List (Stmt .resolved)) {frame : Option LoopFrame} {c c' : Context}
    {u : Unit}, body frame stmts c = .ok (u, c') → Around frame (fun _ => False) c →
      Tallies frame (fun _ => False) c c' (Body.exits stmts)
  | [], _, c, _, _, h, _ => by
      cases h
      exact (Tallies.refl c).emit 0 (by decide)
  | [s], _, c, _, _, h, ha => by
      rw [Body.exits, Body.exits, ExitCount.and_empty]
      exact stmt_tallies s (body_one_inv h) ha
  | s :: next :: rest, _, c, _, _, h, ha => by
      obtain ⟨c₁, hs, hr⟩ := body_cons_inv h
      have hfirst := (stmt_tallies s hs ha).emit 0 (by decide : Op.pop ≠ .jump)
      exact hfirst.trans (body_tallies (next :: rest) hr (ha.mono (fun _ => id) hfirst.labels)) ha

/-- A `break` or `continue` is the one jump to its label; all other statements add up their parts. -/
theorem stmt_tallies : ∀ (s : Stmt .resolved) {frame : Option LoopFrame} {c c' : Context} {u : Unit},
    stmt frame s c = .ok (u, c') → Around frame (fun _ => False) c →
      Tallies frame (fun _ => False) c c' s.exits
  | .declare _ slot init _, _, c, _, _, h, ha => by
      obtain ⟨c₁, hi, rfl⟩ := declare_inv h
      exact ((expr_tallies init hi ha).emit (Int64.ofNat slot) (by decide : Op.declare ≠ .jump)).emit 0
        (by decide)
  | .write newline value _ _, _, c, _, _, h, ha => by
      obtain ⟨c₁, hv, rfl⟩ := write_inv h
      exact ((expr_tallies value hv ha).emit 0 (by cases newline <;> decide)).emit 0 (by decide)
  | .leave _, _, c, _, _, h, ha => by
      obtain ⟨f, hf, rfl⟩ := leave_inv h
      have hexits : f.exits [f.leave] = { leaves := 1 } := by
        simp [LoopFrame.exits, ha.distinct f hf]
      rw [Stmt.exits, ← hexits]
      exact .jumpedOut ha hf (.inl rfl)
  | .again _, _, c, _, _, h, ha => by
      obtain ⟨f, hf, rfl⟩ := again_inv h
      have hexits : f.exits [f.again] = { agains := 1 } := by
        simp [LoopFrame.exits, (ha.distinct f hf).symm]
      rw [Stmt.exits, ← hexits]
      exact .jumpedOut ha hf (.inr rfl)
  | .expr value _, _, _, _, _, h, ha => expr_tallies value h ha

end

theorem program_tallies : ∀ (program : Body .resolved) {c c' : Context} {u : Unit},
    Emit.program program c = .ok (u, c') → Tallies none (fun _ => False) c c' (Body.exits program)
  | [], c, _, _, h => by
      cases h
      exact .refl c
  | s :: rest, c, _, _, h => by
      obtain ⟨c₁, hs, hr⟩ := program_cons_inv h
      have hfirst := (stmt_tallies s hs (.outermost c)).emit 0 (by decide : Op.pop ≠ .jump)
      exact hfirst.trans (program_tallies rest hr) (.outermost c)

end Emit

end BlockLang

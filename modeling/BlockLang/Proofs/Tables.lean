import BlockLang.Proofs.Checking
import BlockLang.Proofs.Confinement
import BlockLang.Proofs.Correctness
import BlockLang.Proofs.Resolution
import BlockLang.Proofs.Validity

/-! Compiled programs are valid. The arguments of the instructions that are emitted for a resolved tree
name slots of the tree, strings of the table and labels that have been taken. The table of strings has no
string twice, and holds the literals of the tree; these are the same in every phase. -/

namespace BlockLang

section Literals

variable {P : Phase}

mutual

/-- The string literals of an expression, in the order in which they are written. -/
def Expr.literals : Expr P → List String
  | .string value _ => [value]
  | .int _ _ | .bool _ _ | .unit _ | .var _ _ => []
  | .assign _ value _ => value.literals
  | .unary _ operand _ => operand.literals
  | .binary _ left right _ => left.literals ++ right.literals
  | .block body _ => Body.literals body
  | .choice cond body others _ => cond.literals ++ Body.literals body ++ others.literals
  | .loop cond body _ => cond.literals ++ Body.literals body

/-- The string literals of the later branches of a choice. -/
def Branches.literals : Branches P → List String
  | .done => []
  | .otherwise body => Body.literals body
  | .orIf cond body others => cond.literals ++ Body.literals body ++ others.literals

def Body.literals : List (Stmt P) → List String
  | [] => []
  | s :: rest => s.literals ++ Body.literals rest

def Stmt.literals : Stmt P → List String
  | .declare _ _ init _ => init.literals
  | .write _ value _ _ => value.literals
  | .leave _ | .again _ => []
  | .expr value _ => value.literals

end

end Literals

section Bare

variable {Tag Mark : Type}

mutual

theorem Expr.literals_bare : ∀ e : Expr ⟨String, Tag, Mark⟩, e.bare.literals = e.literals
  | .int _ _ | .string _ _ | .bool _ _ | .unit _ | .var _ _ => rfl
  | .assign _ value _ => value.literals_bare
  | .unary _ operand _ => operand.literals_bare
  | .binary _ left right _ => by
      simp only [Expr.bare, Expr.literals, left.literals_bare, right.literals_bare]
  | .block body _ => Body.literals_bare body
  | .choice cond body others _ => by
      simp only [Expr.bare, Expr.literals, cond.literals_bare, Body.literals_bare body,
        others.literals_bare]
  | .loop cond body _ => by
      simp only [Expr.bare, Expr.literals, cond.literals_bare, Body.literals_bare body]

theorem Branches.literals_bare : ∀ b : Branches ⟨String, Tag, Mark⟩, b.bare.literals = b.literals
  | .done => rfl
  | .otherwise body => Body.literals_bare body
  | .orIf cond body others => by
      simp only [Branches.bare, Branches.literals, cond.literals_bare, Body.literals_bare body,
        others.literals_bare]

theorem Body.literals_bare : ∀ body : List (Stmt ⟨String, Tag, Mark⟩),
    Body.literals (Body.bare body) = Body.literals body
  | [] => rfl
  | s :: rest => by
      simp only [Body.bare, Body.literals, s.literals_bare, Body.literals_bare rest]

theorem Stmt.literals_bare : ∀ s : Stmt ⟨String, Tag, Mark⟩, s.bare.literals = s.literals
  | .declare _ _ init _ => init.literals_bare
  | .write _ value _ _ => value.literals_bare
  | .leave _ | .again _ => rfl
  | .expr value _ => value.literals_bare

end

end Bare

theorem Checker.literals_of_check {source : Body .parsed} {program : Body .typed} {checker : Checker}
    (h : ({} : Checker).check source = (.ok program, checker)) :
    Body.literals program = Body.literals source := by
  rw [← Body.literals_bare program, Check.stmts_bare source _ _ _ h, Body.literals_bare]

mutual

/-- Every slot that an expression names is below a bound. -/
def Expr.Below (bound : Nat) : Expr .resolved → Prop
  | .int _ _ | .string _ _ | .bool _ _ | .unit _ => True
  | .var slot _ => slot < bound
  | .assign slot value _ => value.Below bound ∧ slot < bound
  | .unary _ operand _ => operand.Below bound
  | .binary _ left right _ => left.Below bound ∧ right.Below bound
  | .block body _ => Body.Below bound body
  | .choice cond body others _ => cond.Below bound ∧ Body.Below bound body ∧ others.Below bound
  | .loop cond body _ => cond.Below bound ∧ Body.Below bound body

/-- The same of the later branches of a choice. -/
def Branches.Below (bound : Nat) : Branches .resolved → Prop
  | .done => True
  | .otherwise body => Body.Below bound body
  | .orIf cond body others => cond.Below bound ∧ Body.Below bound body ∧ others.Below bound

def Body.Below (bound : Nat) : List (Stmt .resolved) → Prop
  | [] => True
  | s :: rest => s.Below bound ∧ Body.Below bound rest

def Stmt.Below (bound : Nat) : Stmt .resolved → Prop
  | .declare _ slot init _ => init.Below bound ∧ slot < bound
  | .write _ value _ _ => value.Below bound
  | .leave _ | .again _ => True
  | .expr value _ => value.Below bound

end

namespace Resolve

variable {bound : Nat}

theorem lookup_below {σ : Slots} {name : String} {slot : Nat} (ht : σ.Tidy)
    (h : σ.names.lookup name = some slot) : slot < σ.next := by
  obtain ⟨n, hn, rfl⟩ := List.mem_map.mp (Storage.mem_of_lookup h)
  exact ht.bound n hn

mutual

/-- Resolving keeps the literals of an expression, and names only slots that have been handed out. -/
theorem expr_tables : ∀ (e : Expr .typed) {σ σ' : Slots} {e' : Expr .resolved},
    expr e σ = .ok (e', σ') →
      e'.literals = e.literals ∧ (σ.Tidy → σ'.next ≤ bound → e'.Below bound)
  | .int _ _, _, _, _, h | .string _ _, _, _, _, h | .bool _ _, _, _, _, h | .unit _, _, _, _, h => by
      cases h
      exact ⟨rfl, fun _ _ => trivial⟩
  | .var name t, σ, σ', e', h => by
      obtain ⟨slot, hslot, rfl, rfl⟩ := var_inv h
      exact ⟨rfl, fun ht hle => Nat.lt_of_lt_of_le (lookup_below ht hslot) hle⟩
  | .assign name value t, σ, σ', e', h => by
      obtain ⟨v, slot, hv, hslot, rfl⟩ := assign_inv h
      obtain ⟨hlit, hbelow⟩ := expr_tables value hv
      refine ⟨hlit, fun ht hle => ⟨hbelow ht hle, ?_⟩⟩
      exact Nat.lt_of_lt_of_le (lookup_below ((expr_keeps value hv).2.tidy ht) hslot) hle
  | .unary op operand t, σ, σ', e', h => by
      obtain ⟨v, hv, rfl⟩ := unary_inv h
      obtain ⟨hlit, hbelow⟩ := expr_tables operand hv
      exact ⟨hlit, hbelow⟩
  | .binary op left right t, σ, σ', e', h => by
      obtain ⟨l, r, σ₁, hl, hr, rfl⟩ := binary_inv h
      obtain ⟨hlitl, hbelowl⟩ := expr_tables left hl
      obtain ⟨hlitr, hbelowr⟩ := expr_tables right hr
      have hnext := (expr_keeps right hr).2.next
      refine ⟨by simp only [Expr.literals, hlitl, hlitr], fun ht hle => ?_⟩
      exact ⟨hbelowl ht (by omega), hbelowr ((expr_keeps left hl).2.tidy ht) hle⟩
  | .block body t, σ, σ', e', h => by
      obtain ⟨b, σ₁, hs, rfl, rfl⟩ := block_inv h
      obtain ⟨hlit, hbelow⟩ := stmts_tables body hs
      exact ⟨hlit, hbelow⟩
  | .choice cond body others t, σ, σ', e', h => by
      obtain ⟨c, b, o, σ₁, σ₂, hc, hs, ho, rfl⟩ := choice_inv h
      obtain ⟨hlitc, hbelowc⟩ := expr_tables cond hc
      obtain ⟨hlitb, hbelowb⟩ := stmts_tables body hs
      obtain ⟨hlito, hbelowo⟩ := branches_tables others ho
      have hk := (expr_keeps cond hc).2
      have hnb := (stmts_grows body hs).next
      have hno := (branches_keeps others ho).next
      simp only at hno
      refine ⟨by simp only [Expr.literals, hlitc, hlitb, hlito], fun ht hle => ?_⟩
      exact ⟨hbelowc ht (by omega), hbelowb (hk.tidy ht) (by omega),
        hbelowo ((block_keeps hs).tidy (hk.tidy ht)) hle⟩
  | .loop cond body t, σ, σ', e', h => by
      obtain ⟨c, b, σ₁, σ₂, hc, hs, rfl, rfl⟩ := loop_inv h
      obtain ⟨hlitc, hbelowc⟩ := expr_tables cond hc
      obtain ⟨hlitb, hbelowb⟩ := stmts_tables body hs
      have hnb := (stmts_grows body hs).next
      refine ⟨by simp only [Expr.literals, hlitc, hlitb], fun ht hle => ?_⟩
      simp only at hle
      exact ⟨hbelowc ht (by omega), hbelowb ((expr_keeps cond hc).2.tidy ht) hle⟩

theorem branches_tables : ∀ (b : Branches .typed) {σ σ' : Slots} {b' : Branches .resolved},
    branches b σ = .ok (b', σ') →
      b'.literals = b.literals ∧ (σ.Tidy → σ'.next ≤ bound → b'.Below bound)
  | .done, _, _, _, h => by
      cases h
      exact ⟨rfl, fun _ _ => trivial⟩
  | .otherwise body, σ, σ', b', h => by
      obtain ⟨b, σ₁, hs, rfl, rfl⟩ := otherwise_inv h
      obtain ⟨hlit, hbelow⟩ := stmts_tables body hs
      exact ⟨hlit, hbelow⟩
  | .orIf cond body others, σ, σ', b', h => by
      obtain ⟨c, b, o, σ₁, σ₂, hc, hs, ho, rfl⟩ := orIf_inv h
      obtain ⟨hlitc, hbelowc⟩ := expr_tables cond hc
      obtain ⟨hlitb, hbelowb⟩ := stmts_tables body hs
      obtain ⟨hlito, hbelowo⟩ := branches_tables others ho
      have hk := (expr_keeps cond hc).2
      have hnb := (stmts_grows body hs).next
      have hno := (branches_keeps others ho).next
      simp only at hno
      refine ⟨by simp only [Branches.literals, hlitc, hlitb, hlito], fun ht hle => ?_⟩
      exact ⟨hbelowc ht (by omega), hbelowb (hk.tidy ht) (by omega),
        hbelowo ((block_keeps hs).tidy (hk.tidy ht)) hle⟩

/-- Resolving keeps the string literals of a body in order, and names slots below the next free one. -/
theorem stmts_tables : ∀ (body : List (Stmt .typed)) {σ σ' : Slots} {b' : Body .resolved},
    stmts body σ = .ok (b', σ') →
      Body.literals b' = Body.literals body ∧ (σ.Tidy → σ'.next ≤ bound → Body.Below bound b')
  | [], _, _, _, h => by
      cases h
      exact ⟨rfl, fun _ _ => trivial⟩
  | s :: rest, σ, σ', b', h => by
      obtain ⟨first, later, σ₁, hs, hr, rfl⟩ := stmts_cons_inv h
      obtain ⟨hlits, hbelows⟩ := stmt_tables s hs
      obtain ⟨hlitr, hbelowr⟩ := stmts_tables rest hr
      have hnext := (stmts_grows rest hr).next
      refine ⟨by simp only [Body.literals, hlits, hlitr], fun ht hle => ?_⟩
      exact ⟨hbelows ht (by omega), hbelowr ((stmt_grows s hs).tidy ht) hle⟩

/-- Resolving keeps the string literals of a statement, and names slots below the next free one. -/
theorem stmt_tables : ∀ (s : Stmt .typed) {σ σ' : Slots} {s' : Stmt .resolved},
    stmt s σ = .ok (s', σ') →
      s'.literals = s.literals ∧ (σ.Tidy → σ'.next ≤ bound → s'.Below bound)
  | .declare type name init m, σ, σ', s', h => by
      obtain ⟨i, σ₁, hi, rfl, rfl⟩ := declare_inv h
      obtain ⟨hlit, hbelow⟩ := expr_tables init hi
      exact ⟨hlit, fun ht hle => ⟨hbelow ht (Nat.le_of_succ_le hle), hle⟩⟩
  | .write newline value shown m, σ, σ', s', h => by
      obtain ⟨v, hv, rfl⟩ := write_inv h
      obtain ⟨hlit, hbelow⟩ := expr_tables value hv
      exact ⟨hlit, hbelow⟩
  | .leave _, _, _, _, h | .again _, _, _, _, h => by
      cases h
      exact ⟨rfl, fun _ _ => trivial⟩
  | .expr value m, σ, σ', s', h => by
      obtain ⟨v, hv, rfl⟩ := expr_stmt_inv h
      obtain ⟨hlit, hbelow⟩ := expr_tables value hv
      exact ⟨hlit, hbelow⟩

end

end Resolve

/-- A resolved program has the literals of the program, and names its own slots only. -/
theorem resolve_tables {program : Body .typed} {body : Body .resolved} {slots : Nat}
    (h : resolve program = .ok (body, slots)) :
    Body.literals body = Body.literals program ∧ Body.Below slots body := by
  obtain ⟨σ, hs, rfl⟩ := resolve_ok.mp h
  obtain ⟨hlit, hbelow⟩ := Resolve.stmts_tables program hs
  exact ⟨hlit, hbelow ⟨List.nodup_nil, List.forall_mem_nil _⟩ (Nat.le_refl _)⟩

/-! ### Emitted code -/

/-- An instruction that, if it names a slot or a string, names one of that many. -/
def Emitted.Names (slots strings : Nat) (x : Emitted) : Prop :=
  ∀ op arg, x.instr = Instr.of op arg →
    (op.operand = .slot → ∃ n < slots, arg = Int64.ofNat n) ∧
    (op.operand = .string → ∃ n < strings, arg = Int64.ofNat n)

theorem Emitted.Names.mono {slots strings strings' : Nat} {x : Emitted} (h : x.Names slots strings)
    (hle : strings ≤ strings') : x.Names slots strings' := by
  intro op arg hx
  obtain ⟨hslot, hstring⟩ := h op arg hx
  refine ⟨hslot, fun hop => ?_⟩
  obtain ⟨n, hn, harg⟩ := hstring hop
  exact ⟨n, Nat.lt_of_lt_of_le hn hle, harg⟩

/-- What is emitted from one context to another for a tree with some slots and literals. The literals
are what is added to the table of strings, and none is added twice. -/
structure Supplied (slots : Nat) (c c' : Context) (literals : List String) : Prop where
  names : ∀ x ∈ c'.code.toList, x ∈ c.code.toList ∨ x.Names slots c'.strings.size
  size : c.strings.size ≤ c'.strings.size
  mem : ∀ s, s ∈ c'.strings ↔ s ∈ c.strings ∨ s ∈ literals
  nodup : c.strings.toList.Nodup → c'.strings.toList.Nodup

namespace Supplied

variable {slots : Nat} {c c' c₁ c₂ : Context} {xs ys : List String}

theorem refl (c : Context) : Supplied slots c c [] :=
  ⟨fun _ => .inl, Nat.le_refl _, fun s => by simp, id⟩

theorem trans (h : Supplied slots c c₁ xs) (h' : Supplied slots c₁ c₂ ys) :
    Supplied slots c c₂ (xs ++ ys) where
  names x hx := by
    rcases h'.names x hx with hx | hx
    · exact (h.names x hx).imp_right fun hx => hx.mono h'.size
    · exact .inr hx
  size := Nat.le_trans h.size h'.size
  mem s := by rw [h'.mem, h.mem, List.mem_append, or_assoc]
  nodup := h'.nodup ∘ h.nodup

theorem emit (h : Supplied slots c c₁ xs) {op : Op} {arg : Int64}
    (hslot : op.operand = .slot → ∃ n < slots, arg = Int64.ofNat n)
    (hstring : op.operand = .string → ∃ n < c₁.strings.size, arg = Int64.ofNat n) :
    Supplied slots c (c₁.emit op arg) xs := by
  refine ⟨fun x hx => ?_, h.size, h.mem, h.nodup⟩
  rw [Context.toList_emit, List.mem_append, List.mem_singleton] at hx
  rcases hx with hx | rfl
  · exact h.names x hx
  · refine .inr fun op' arg' heq => ?_
    obtain ⟨rfl, rfl⟩ := Instr.of_inj.mp heq
    exact ⟨hslot, hstring⟩

/-- An instruction that names neither a slot nor a string. -/
theorem other (h : Supplied slots c c₁ xs) (op : Op) (arg : Int64) (hslot : op.operand ≠ .slot)
    (hstring : op.operand ≠ .string) : Supplied slots c (c₁.emit op arg) xs :=
  h.emit (fun hop => absurd hop hslot) fun hop => absurd hop hstring

theorem atSlot (h : Supplied slots c c₁ xs) (op : Op) {slot : Nat} (hlt : slot < slots)
    (hstring : op.operand ≠ .string) : Supplied slots c (c₁.emitAt op slot) xs :=
  h.emit (fun _ => ⟨slot, hlt, rfl⟩) fun hop => absurd hop hstring

theorem atLabel (h : Supplied slots c c₁ xs) (op : Op) (label : Nat) (hop : op.operand = .label) :
    Supplied slots c (c₁.emitAt op label) xs :=
  h.other op _ (by rw [hop]; decide) (by rw [hop]; decide)

theorem withDepth (h : Supplied slots c c₁ xs) (d : Nat) : Supplied slots c (c₁.withDepth d) xs :=
  ⟨h.names, h.size, h.mem, h.nodup⟩

theorem withLoop (h : Supplied slots c c₁ xs) (f : LoopFrame) (first : Nat) :
    Supplied slots c (c₁.withLoop f first) xs :=
  ⟨h.names, h.size, h.mem, h.nodup⟩

theorem absorb {n : Nat} (h : Supplied slots (c.withLabels n) c₁ xs) : Supplied slots c c₁ xs :=
  ⟨h.names, h.size, h.mem, h.nodup⟩

theorem dropped (h : Supplied slots c c₁ xs) (n : Nat) : Supplied slots c (c₁.dropped n) xs := by
  induction n generalizing c₁ with
  | zero => exact h
  | succ n ih => exact ih (h.other .pop 0 (by decide) (by decide))

theorem jumpedOut (c : Context) (f : LoopFrame) (label : Nat) :
    Supplied slots c (c.jumpedOut f label) [] :=
  (((refl c).dropped _).atLabel .jump label rfl).withDepth _

theorem closeArm (h : Supplied slots c c₁ xs) (finish next base : Nat) :
    Supplied slots c (c₁.closeArm finish next base) xs :=
  ((h.atLabel .jump finish rfl).atLabel .label next rfl).withDepth base

theorem closeLoop (h : Supplied slots c c₁ xs) (f : LoopFrame) (first : Nat) :
    Supplied slots c (c₁.closeLoop f first) xs := by
  have hagain := (h.other .pop 0 (by decide) (by decide)).atLabel .jump f.again rfl
  have hleave := ((hagain.withLoop f first).atLabel .label f.leave rfl).withDepth f.depth
  exact hleave.other .pushUnit 0 (by decide) (by decide)

/-- A literal is found in the table, or added to it. -/
theorem string {value : String} {index : Nat} {strings : Array String}
    (hat : strings[index]? = some value)
    (hstrings : strings = c.strings ∨ value ∉ c.strings ∧ strings = c.strings.push value) :
    Supplied slots c (({ c with strings } : Context).emitAt .pushString index) [value] := by
  have hin : value ∈ strings := Array.mem_of_getElem? hat
  have hlt : index < strings.size := (Array.getElem?_eq_some_iff.mp hat).1
  have hbase : Supplied slots c { c with strings } [value] := by
    rcases hstrings with rfl | ⟨hnew, rfl⟩
    · refine ⟨fun _ => .inl, Nat.le_refl _, fun s => ⟨.inl, ?_⟩, id⟩
      rintro (hs | hs)
      · exact hs
      · exact List.mem_singleton.mp hs ▸ hin
    · refine ⟨fun _ => .inl, ?_, fun s => ?_, fun hnodup => ?_⟩
      · rw [Array.size_push]
        exact Nat.le_succ _
      · rw [Array.mem_push, List.mem_singleton]
      · rw [Array.toList_push]
        exact hnodup.append (List.nodup_singleton _) (by simpa using hnew)
  exact hbase.emit (fun hop => absurd hop (by decide)) fun _ => ⟨index, hlt, rfl⟩

end Supplied

namespace Emit

open Sequence

variable {slots : Nat}

theorem unaryOp_operand (op : UnaryOp) : (unaryOp op).operand = .none := by
  cases op <;> rfl

theorem binaryOp_operand (op : BinaryOp) (left : Ty) : (binaryOp op left).operand = .none := by
  cases op <;> cases left <;> rfl

mutual

/-- The code of an expression adds its literals to the table, and names only what is there. -/
theorem expr_supplied : ∀ (e : Expr .resolved) {frame : Option LoopFrame} {c c' : Context} {u : Unit},
    expr frame e c = .ok (u, c') → e.Below slots → Supplied slots c c' e.literals
  | .int _ _, _, c, _, _, h, _ | .bool _ _, _, c, _, _, h, _ | .unit _, _, c, _, _, h, _ => by
      cases h
      exact (Supplied.refl c).other _ _ (by decide) (by decide)
  | .string value _, _, c, _, _, h, _ => by
      obtain ⟨index, strings, hconst, hat, hstrings⟩ := constant_cases c value
      obtain ⟨index', c₁, hc, h⟩ := bind_ok.mp h
      rw [hconst] at hc
      cases hc
      cases h
      exact .string hat hstrings
  | .var slot _, _, c, _, _, h, hb => by
      cases h
      exact (Supplied.refl c).atSlot .load hb (by decide)
  | .assign slot value _, _, _, _, _, h, hb => by
      obtain ⟨c₁, hv, rfl⟩ := assign_inv h
      exact (expr_supplied value hv hb.1).atSlot .assign hb.2 (by decide)
  | .unary op operand _, _, _, _, _, h, hb => by
      obtain ⟨c₁, hv, rfl⟩ := unary_inv h
      have hop := unaryOp_operand op
      exact (expr_supplied operand hv hb).other _ 0 (by rw [hop]; decide) (by rw [hop]; decide)
  | .binary op left right _, _, _, _, _, h, hb => by
      obtain ⟨c₁, c₂, hl, hr, rfl⟩ := binary_inv h
      have hop := binaryOp_operand op left.tag
      exact ((expr_supplied left hl hb.1).trans (expr_supplied right hr hb.2)).other _ 0
        (by rw [hop]; decide) (by rw [hop]; decide)
  | .block stmts _, _, _, _, _, h, hb => body_supplied stmts h hb
  | .choice cond stmts others _, _, c, _, _, h, hb => by
      obtain ⟨c₁, c₂, c₃, hc, hs, ho, rfl⟩ := choice_inv h
      have hcond := (expr_supplied cond hc hb.1).absorb.atLabel .jumpFalse (c.labels + 1) rfl
      have harm := (hcond.trans (body_supplied stmts hs hb.2.1)).closeArm c.labels (c.labels + 1)
        c.depth
      exact ((harm.trans (branches_supplied others ho hb.2.2)).atLabel .label c.labels rfl).withDepth _
  | .loop cond stmts _, _, c, _, _, h, hb => by
      obtain ⟨c₁, c₂, hc, hs, rfl⟩ := loop_inv h
      have hstart : Supplied slots c _ [] :=
        ((Supplied.refl (c.withLabels 2)).atLabel .label c.labels rfl).absorb
      have hcond := (hstart.trans (expr_supplied cond hc hb.1)).atLabel .jumpFalse (c.labels + 1) rfl
      exact (hcond.trans (body_supplied stmts hs hb.2)).closeLoop c.loopFrame c.code.size

theorem branches_supplied : ∀ (b : Branches .resolved) {frame : Option LoopFrame} {base finish : Nat}
    {c c' : Context} {u : Unit}, branches frame base finish b c = .ok (u, c') → b.Below slots →
      Supplied slots c c' b.literals
  | .done, _, _, _, c, _, _, h, _ => by
      cases h
      exact (Supplied.refl c).other .pushUnit 0 (by decide) (by decide)
  | .otherwise stmts, _, _, _, _, _, _, h, hb => body_supplied stmts h hb
  | .orIf cond stmts others, _, base, finish, c, _, _, h, hb => by
      obtain ⟨c₁, c₂, hc, hs, ho⟩ := orIf_inv h
      have hcond := (expr_supplied cond hc hb.1).absorb.atLabel .jumpFalse c.labels rfl
      have harm := (hcond.trans (body_supplied stmts hs hb.2.1)).closeArm finish c.labels base
      exact harm.trans (branches_supplied others ho hb.2.2)

theorem body_supplied : ∀ (stmts : List (Stmt .resolved)) {frame : Option LoopFrame} {c c' : Context}
    {u : Unit}, body frame stmts c = .ok (u, c') → Body.Below slots stmts →
      Supplied slots c c' (Body.literals stmts)
  | [], _, c, _, _, h, _ => by
      cases h
      exact (Supplied.refl c).other .pushUnit 0 (by decide) (by decide)
  | [s], _, _, c', _, h, hb => (stmt_supplied s (body_one_inv h) hb.1).trans (.refl c')
  | s :: next :: rest, _, _, _, _, h, hb => by
      obtain ⟨c₁, hs, hr⟩ := body_cons_inv h
      have hpop := (stmt_supplied s hs hb.1).other .pop 0 (by decide) (by decide)
      exact hpop.trans (body_supplied (next :: rest) hr hb.2)

/-- The code of a statement names its own slots, and string constants that are its literals. -/
theorem stmt_supplied : ∀ (s : Stmt .resolved) {frame : Option LoopFrame} {c c' : Context} {u : Unit},
    stmt frame s c = .ok (u, c') → s.Below slots → Supplied slots c c' s.literals
  | .declare _ slot init _, _, _, _, _, h, hb => by
      obtain ⟨c₁, hi, rfl⟩ := declare_inv h
      have hdeclare := (expr_supplied init hi hb.1).atSlot .declare hb.2 (by decide)
      exact hdeclare.other .pushUnit 0 (by decide) (by decide)
  | .write newline value _ _, _, _, _, _, h, hb => by
      obtain ⟨c₁, hv, rfl⟩ := write_inv h
      have hwrite := (expr_supplied value hv hb).other (if newline then .writeln else .write) 0
        (by cases newline <;> decide) (by cases newline <;> decide)
      exact hwrite.other .pushUnit 0 (by decide) (by decide)
  | .leave _, _, c, _, _, h, _ => by
      obtain ⟨f, -, rfl⟩ := leave_inv h
      exact .jumpedOut c f f.leave
  | .again _, _, c, _, _, h, _ => by
      obtain ⟨f, -, rfl⟩ := again_inv h
      exact .jumpedOut c f f.again
  | .expr value _, _, _, _, _, h, hb => expr_supplied value h hb

end

theorem program_supplied : ∀ (program : Body .resolved) {c c' : Context} {u : Unit},
    Emit.program program c = .ok (u, c') → Body.Below slots program →
      Supplied slots c c' (Body.literals program)
  | [], c, _, _, h, _ => by
      cases h
      exact .refl c
  | s :: rest, _, _, _, h, hb => by
      obtain ⟨c₁, hs, hr⟩ := program_cons_inv h
      have hpop := (stmt_supplied s hs hb.1).other .pop 0 (by decide) (by decide)
      exact hpop.trans (program_supplied rest hr hb.2)

end Emit

theorem Fine.label_below {base top : Nat} {own : Nat → Prop} {x : Emitted}
    (h : Fine base own none x) (hown : ∀ l, own l → l < top) :
    ∃ op arg, x.instr = Instr.of op arg ∧
      (op.operand = .label → ∃ l < top, arg = Int64.ofNat l) := by
  cases h with
  | @other op arg _ hop _ => exact ⟨op, arg, rfl, fun hlabel => absurd hlabel hop⟩
  | @label op l _ _ _ hl => exact ⟨op, _, rfl, fun _ => ⟨l, hown l hl, rfl⟩⟩
  | exit hf _ _ => cases hf

theorem inRange_ofNat {n bound : Nat} (hn : n < bound) (hbound : bound ≤ tableLimit) :
    0 ≤ (Int64.ofNat n).toInt ∧ (Int64.ofNat n).toInt < bound := by
  rw [toInt_ofNat_of_le (by omega)]
  omega

theorem Finished.marks_label {c : Context} {slots : Nat} (hc : Finished c slots) {label : Int64}
    (hlow : 0 ≤ label.toInt) (hlt : label.toInt < c.labels) : c.marks label = 1 := by
  have hle := hc.labels_le
  have hlabel : label = Int64.ofNat label.toInt.toNat := by
    refine Int64.toInt_inj.mp ?_
    rw [toInt_ofNat_of_le (by omega), Int.toNat_of_nonneg hlow]
  have hmem : label ∈ (List.range' 0 (c.labels - 0)).map Int64.ofNat :=
    List.mem_map.mpr ⟨label.toInt.toNat, List.mem_range'_1.mpr (by omega), hlabel.symm⟩
  have hpos : 0 < allotted 0 c.labels label := List.count_pos_iff.mpr hmem
  have hone := allotted_le_one hle label
  rw [hc.marks_eq]
  omega

/-- The compiled form of a tree that names its own slots only is well formed: labels are in range since code keeps
to its own, slots and strings since they are supplied. -/
theorem Program.Holds.wellFormed {p : Program} {c : Context} {slots : Nat} {body : Body .resolved}
    (hp : p.Holds c slots) (hc : Finished c slots) (hemit : Emit.program body {} = .ok ((), c))
    (hbelow : Body.Below slots body) : p.WellFormed := by
  have hslots : p.slotCount.toInt = slots := by rw [hp.slots, toInt_ofNat_of_le hc.slots_le]
  have hlabels : p.labelCount.toInt = c.labels := by rw [hp.labels, toInt_ofNat_of_le hc.labels_le]
  have hinstrs : p.instrs.toList = c.code.toList.map (·.instr) := by
    rw [hp.instrs, Array.toList_map]
  refine ⟨by omega, by omega, fun i hi => ?_, fun label hlow hlt => ?_⟩
  · rw [hinstrs] at hi
    obtain ⟨x, hx, rfl⟩ := List.mem_map.mp hi
    obtain ⟨k, hk⟩ := List.getElem?_of_mem hx
    obtain ⟨op, arg, hop, hlabel⟩ :=
      ((Emit.program_confined body hemit).fine k x (Nat.zero_le k) hk).label_below
        fun l (hl : False ∨ 0 ≤ l ∧ l < c.labels) => (hl.resolve_left id).2
    have hnames : x.Names slots c.strings.size :=
      ((Emit.program_supplied body hemit hbelow).names x hx).resolve_left List.not_mem_nil
    obtain ⟨hslot, hstring⟩ := hnames op arg hop
    rw [hop]
    refine ⟨op, Instr.op?_of op arg, fun limit hlimit => ?_⟩
    rw [Instr.arg_of]
    cases hoperand : op.operand with
    | slot =>
        obtain ⟨n, hn, rfl⟩ := hslot hoperand
        rw [hoperand, limit?, hslots] at hlimit
        cases hlimit
        exact inRange_ofNat hn hc.slots_le
    | string =>
        obtain ⟨n, hn, rfl⟩ := hstring hoperand
        rw [hoperand, limit?, hp.constants] at hlimit
        cases hlimit
        exact inRange_ofNat hn hc.strings_le
    | label =>
        obtain ⟨n, hn, rfl⟩ := hlabel hoperand
        rw [hoperand, limit?, hlabels] at hlimit
        cases hlimit
        exact inRange_ofNat hn hc.labels_le
    | int | none =>
        rw [hoperand] at hlimit
        cases hlimit
  · rw [hinstrs]
    exact hc.marks_label hlow (by omega)

/-- A program that the checker accepts has slots for its names and code that ends with an empty stack.
The compiled form, unless it is too long to have one, is valid: what its instructions name is there,
and each label is marked once. Its table of strings has the literals of the program, each of them
once. -/
theorem compiled_valid {source : Body .parsed} {program : Body .typed} {checker : Checker}
    (h : ({} : Checker).check source = (.ok program, checker)) :
    ∃ body slots c, resolve program = .ok (body, slots) ∧
      (Emit.program body).run {} = .ok ((), c) ∧ c.depth = 0 ∧
      (tableLimit < c.code.size ∧ generate body slots = .error (.tooLong c.code.size) ∨
        ∃ p, generate body slots = .ok p ∧ p.validate = .ok () ∧ p.WellFormed ∧
          p.constants.toList.Nodup ∧ ∀ s, s ∈ p.constants ↔ s ∈ Body.literals source) := by
  obtain ⟨body, slots, c, hres, hemit, hcases⟩ := (Checker.check_wellTyped h).generates
  obtain ⟨-, hdepth⟩ := Emit.program_lays body hemit
  refine ⟨body, slots, c, hres, hemit, hdepth, hcases.imp_right ?_⟩
  rintro ⟨hfin, p, hgen, hp⟩
  obtain ⟨hliterals, hbelow⟩ := resolve_tables hres
  have hsupplied := Emit.program_supplied body hemit hbelow
  have hwell := hp.wellFormed hfin hemit hbelow
  refine ⟨p, hgen, hwell.validate, hwell, ?_, fun s => ?_⟩
  · rw [hp.constants]
    exact hsupplied.nodup List.nodup_nil
  · rw [hp.constants, hsupplied.mem, hliterals, Checker.literals_of_check h]
    exact or_iff_right (Array.not_mem_empty s)

/-- A loop that is left from within a choice, with a literal that is written twice and a variable that
is declared again. -/
theorem compiled_valid_nested :
    let source : Body .parsed := [
      .declare .string "s" (.string "a" ()) {},
      .expr (.loop (.bool true ()) [
        .declare .string "s" (.binary .add (.var "s" ()) (.string "b" ()) ()) {},
        .expr (.choice (.bool false ()) [.again {}] (.otherwise [.leave {}]) ()) {},
        .write true (.string "a" ()) () {}] ()) {}]
    let program : Body .typed := [
      .declare .string "s" (.string "a" .string) .unit,
      .expr (.loop (.bool true .bool) [
        .declare .string "s" (.binary .add (.var "s" .string) (.string "b" .string) .string) .unit,
        .expr (.choice (.bool false .bool) [.again .unit] (.otherwise [.leave .unit]) .unit) .unit,
        .write true (.string "a" .string) .string .unit] .unit) .unit]
    (∃ checker, ({} : Checker).check source = (.ok program, checker)) ∧
      Body.literals source = ["a", "b", "a"] ∧
      ∃ body slots p, resolve program = .ok (body, slots) ∧ generate body slots = .ok p ∧
        p.validate = .ok () ∧ p.labelCount = 4 ∧ p.constants.toList.Nodup ∧
        ∀ s, s ∈ p.constants ↔ s ∈ ["a", "b", "a"] := by
  intro source program
  obtain ⟨checker, hcheck⟩ : ∃ checker, ({} : Checker).check source = (.ok program, checker) :=
    ⟨_, rfl⟩
  refine ⟨⟨checker, hcheck⟩, rfl, ?_⟩
  obtain ⟨body, slots, c, hres, -, -, hcases⟩ := compiled_valid hcheck
  have hlabels : (generate body slots).toOption.map (·.labelCount) = some 4 := by
    cases hres
    decide +kernel
  obtain ⟨-, hgen⟩ | ⟨p, hgen, hvalid, -, hnodup, hmem⟩ := hcases
  · rw [hgen] at hlabels
    cases hlabels
  · rw [hgen] at hlabels
    exact ⟨body, slots, p, hres, hgen, hvalid, Option.some.inj hlabels, hnodup, hmem⟩

end BlockLang

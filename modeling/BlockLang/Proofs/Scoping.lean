import BlockLang.Proofs.Meaning
import BlockLang.Proofs.Typing
import BlockLang.Tree.Resolve
import Mathlib.Data.List.Forall2

/-! Slots stand for names. Resolving a well-typed tree succeeds, hands out one slot for every
declaration, and yields a tree that means the same: an evaluation with slots stops for the same
reason or has the same value as the evaluation with names, and prints the same. The slots of the
visible variables are all different, and hold the values of these variables throughout. -/

namespace BlockLang

section Shapes

variable {P : Phase}

mutual

def Expr.declarations : Expr P → Nat
  | .int _ _ | .string _ _ | .bool _ _ | .unit _ | .var _ _ => 0
  | .assign _ value _ => value.declarations
  | .unary _ operand _ => operand.declarations
  | .binary _ left right _ => left.declarations + right.declarations
  | .block body _ => Body.declarations body
  | .choice cond body others _ =>
    cond.declarations + Body.declarations body + others.declarations
  | .loop cond body _ => cond.declarations + Body.declarations body

/-- The number of declarations in the later branches of a choice. -/
def Branches.declarations : Branches P → Nat
  | .done => 0
  | .otherwise body => Body.declarations body
  | .orIf cond body others => cond.declarations + Body.declarations body + others.declarations

def Body.declarations : List (Stmt P) → Nat
  | [] => 0
  | s :: rest => s.declarations + Body.declarations rest

def Stmt.declarations : Stmt P → Nat
  | .declare _ _ init _ => init.declarations + 1
  | .write _ value _ _ => value.declarations
  | .leave _ | .again _ => 0
  | .expr value _ => value.declarations

end

mutual

/-- Every `break` and `continue` of an expression stands in the body of a loop. -/
def Expr.Enclosed : Bool → Expr P → Prop
  | _, .int _ _ | _, .string _ _ | _, .bool _ _ | _, .unit _ | _, .var _ _ => True
  | inLoop, .assign _ value _ => value.Enclosed inLoop
  | inLoop, .unary _ operand _ => operand.Enclosed inLoop
  | inLoop, .binary _ left right _ => left.Enclosed inLoop ∧ right.Enclosed inLoop
  | inLoop, .block body _ => Body.Enclosed inLoop body
  | inLoop, .choice cond body others _ =>
    cond.Enclosed inLoop ∧ Body.Enclosed inLoop body ∧ others.Enclosed inLoop
  | inLoop, .loop cond body _ => cond.Enclosed inLoop ∧ Body.Enclosed true body

/-- The same of the later branches of a choice. -/
def Branches.Enclosed : Bool → Branches P → Prop
  | _, .done => True
  | inLoop, .otherwise body => Body.Enclosed inLoop body
  | inLoop, .orIf cond body others =>
    cond.Enclosed inLoop ∧ Body.Enclosed inLoop body ∧ others.Enclosed inLoop

def Body.Enclosed : Bool → List (Stmt P) → Prop
  | _, [] => True
  | inLoop, s :: rest => s.Enclosed inLoop ∧ Body.Enclosed inLoop rest

def Stmt.Enclosed : Bool → Stmt P → Prop
  | inLoop, .declare _ _ init _ => init.Enclosed inLoop
  | inLoop, .write _ value _ _ => value.Enclosed inLoop
  | inLoop, .leave _ | inLoop, .again _ => inLoop
  | inLoop, .expr value _ => value.Enclosed inLoop

end

end Shapes

/-- All slots in use are different, and none of them is free. -/
structure Slots.Tidy (σ : Slots) : Prop where
  nodup : (σ.names.map Prod.snd).Nodup
  bound : ∀ n ∈ σ.names, n.2 < σ.next

namespace Resolve

open Sequence

/-- A pass that hands out slots, and leaves the visible variables as they were. -/
structure Keeps (σ σ' : Slots) (handedOut : Nat) : Prop where
  names : σ'.names = σ.names
  next : σ'.next = σ.next + handedOut

/-- A pass that hands out slots, and may add visible variables. -/
structure Grows (σ σ' : Slots) (handedOut : Nat) : Prop where
  names : σ.names <:+ σ'.names
  next : σ'.next = σ.next + handedOut
  tidy : σ.Tidy → σ'.Tidy

variable {σ σ' σ'' : Slots} {m n : Nat}

theorem Keeps.rfl : Keeps σ σ 0 := ⟨.refl _, .refl _⟩

theorem Keeps.trans (h : Keeps σ σ' m) (h' : Keeps σ' σ'' n) : Keeps σ σ'' (m + n) :=
  ⟨h'.names.trans h.names, by rw [h'.next, h.next, Nat.add_assoc]⟩

theorem Keeps.tidy (h : Keeps σ σ' n) (ht : σ.Tidy) : σ'.Tidy := by
  refine ⟨h.names ▸ ht.nodup, fun v hv => ?_⟩
  have hlt := ht.bound v (h.names ▸ hv)
  have hnext := h.next
  omega

theorem Keeps.grows (h : Keeps σ σ' n) : Grows σ σ' n :=
  ⟨h.names ▸ List.suffix_refl _, h.next, h.tidy⟩

theorem Grows.trans (h : Grows σ σ' m) (h' : Grows σ' σ'' n) : Grows σ σ'' (m + n) :=
  ⟨h.names.trans h'.names, by rw [h'.next, h.next, Nat.add_assoc], fun ht => h'.tidy (h.tidy ht)⟩

theorem lookup_ok {name : String} {slot : Nat} (h : lookup name σ = .ok (slot, σ')) :
    σ.names.lookup name = some slot ∧ σ = σ' := by
  rw [lookup] at h
  cases hl : σ.names.lookup name with
  | none =>
      rw [hl] at h
      cases h
  | some k =>
      rw [hl] at h
      cases h
      exact ⟨.refl _, .refl _⟩

theorem inBlock_ok {α : Type} {pass : Resolve α} {a : α} (h : inBlock pass σ = .ok (a, σ')) :
    ∃ σ₁, pass σ = .ok (a, σ₁) ∧ { σ₁ with names := σ.names } = σ' := by
  obtain ⟨outer, σ₀, hget, h⟩ := bind_ok.mp h
  cases hget
  obtain ⟨a', σ₁, hp, h⟩ := bind_ok.mp h
  obtain ⟨_, σ₂, hm, h⟩ := bind_ok.mp h
  cases hm
  cases h
  exact ⟨σ₁, hp, .refl _⟩

theorem declare_grows {name : String} :
    Grows σ { names := (name, σ.next) :: σ.names, next := σ.next + 1 } 1 := by
  refine ⟨List.suffix_cons _ _, .refl _, fun ht => ⟨?_, ?_⟩⟩
  · refine List.nodup_cons.mpr ⟨fun hmem => ?_, ht.nodup⟩
    obtain ⟨v, hv, heq⟩ := List.mem_map.mp hmem
    exact absurd (ht.bound v hv) (by omega)
  · intro v hv
    rcases List.mem_cons.mp hv with rfl | hv
    · exact Nat.lt_succ_self _
    · exact Nat.lt_succ_of_lt (ht.bound v hv)

mutual

/-- Resolving an expression keeps its type and the names in scope, and takes a slot for each declaration. -/
theorem expr_keeps : ∀ (e : Expr .typed) {σ σ' : Slots} {e' : Expr .resolved},
    expr e σ = .ok (e', σ') → e'.tag = e.tag ∧ Keeps σ σ' e'.declarations
  | .int _ _, _, _, _, h | .string _ _, _, _, _, h | .bool _ _, _, _, _, h | .unit _, _, _, _, h => by
      cases h
      exact ⟨.refl _, .rfl⟩
  | .var name t, σ, σ', e', h => by
      obtain ⟨slot, σ₁, hl, h⟩ := bind_ok.mp h
      obtain ⟨-, rfl⟩ := lookup_ok hl
      cases h
      exact ⟨.refl _, .rfl⟩
  | .assign name value t, σ, σ', e', h => by
      obtain ⟨v, σ₁, hv, h⟩ := bind_ok.mp h
      obtain ⟨slot, σ₂, hl, h⟩ := bind_ok.mp h
      obtain ⟨-, rfl⟩ := lookup_ok hl
      cases h
      exact ⟨.refl _, (expr_keeps value hv).2⟩
  | .unary op operand t, σ, σ', e', h => by
      obtain ⟨v, σ₁, hv, h⟩ := bind_ok.mp h
      cases h
      exact ⟨.refl _, (expr_keeps operand hv).2⟩
  | .binary op left right t, σ, σ', e', h => by
      obtain ⟨l, σ₁, hl, h⟩ := bind_ok.mp h
      obtain ⟨r, σ₂, hr, h⟩ := bind_ok.mp h
      cases h
      exact ⟨.refl _, (expr_keeps left hl).2.trans (expr_keeps right hr).2⟩
  | .block body t, σ, σ', e', h => by
      obtain ⟨b, σ₁, hb, h⟩ := bind_ok.mp h
      obtain ⟨σ₂, hs, rfl⟩ := inBlock_ok hb
      cases h
      exact ⟨.refl _, .refl _, (stmts_grows body hs).next⟩
  | .choice cond body others t, σ, σ', e', h => by
      obtain ⟨c, σ₁, hc, h⟩ := bind_ok.mp h
      obtain ⟨b, σ₂, hb, h⟩ := bind_ok.mp h
      obtain ⟨σ₃, hs, rfl⟩ := inBlock_ok hb
      obtain ⟨o, σ₄, ho, h⟩ := bind_ok.mp h
      cases h
      have hkb : Keeps σ₁ { σ₃ with names := σ₁.names } _ := ⟨.refl _, (stmts_grows body hs).next⟩
      exact ⟨.refl _, ((expr_keeps cond hc).2.trans hkb).trans (branches_keeps others ho)⟩
  | .loop cond body t, σ, σ', e', h => by
      obtain ⟨c, σ₁, hc, h⟩ := bind_ok.mp h
      obtain ⟨b, σ₂, hb, h⟩ := bind_ok.mp h
      obtain ⟨σ₃, hs, rfl⟩ := inBlock_ok hb
      cases h
      exact ⟨.refl _, (expr_keeps cond hc).2.trans ⟨.refl _, (stmts_grows body hs).next⟩⟩

/-- Resolving the later branches keeps the names in scope. -/
theorem branches_keeps : ∀ (b : Branches .typed) {σ σ' : Slots} {b' : Branches .resolved},
    branches b σ = .ok (b', σ') → Keeps σ σ' b'.declarations
  | .done, _, _, _, h => by
      cases h
      exact .rfl
  | .otherwise body, σ, σ', b', h => by
      obtain ⟨b, σ₁, hb, h⟩ := bind_ok.mp h
      obtain ⟨σ₂, hs, rfl⟩ := inBlock_ok hb
      cases h
      exact ⟨.refl _, (stmts_grows body hs).next⟩
  | .orIf cond body others, σ, σ', b', h => by
      obtain ⟨c, σ₁, hc, h⟩ := bind_ok.mp h
      obtain ⟨b, σ₂, hb, h⟩ := bind_ok.mp h
      obtain ⟨σ₃, hs, rfl⟩ := inBlock_ok hb
      obtain ⟨o, σ₄, ho, h⟩ := bind_ok.mp h
      cases h
      have hkb : Keeps σ₁ { σ₃ with names := σ₁.names } _ := ⟨.refl _, (stmts_grows body hs).next⟩
      exact ((expr_keeps cond hc).2.trans hkb).trans (branches_keeps others ho)

theorem stmts_grows : ∀ (body : List (Stmt .typed)) {σ σ' : Slots} {b' : Body .resolved},
    stmts body σ = .ok (b', σ') → Grows σ σ' (Body.declarations b')
  | [], _, _, _, h => by
      cases h
      exact Keeps.rfl.grows
  | s :: rest, σ, σ', b', h => by
      obtain ⟨s', σ₁, hs, h⟩ := bind_ok.mp h
      obtain ⟨rest', σ₂, hr, h⟩ := bind_ok.mp h
      cases h
      exact (stmt_grows s hs).trans (stmts_grows rest hr)

/-- Resolving a statement adds at most its own name to those in scope. -/
theorem stmt_grows : ∀ (s : Stmt .typed) {σ σ' : Slots} {s' : Stmt .resolved},
    stmt s σ = .ok (s', σ') → Grows σ σ' s'.declarations
  | .declare type name init m, σ, σ', s', h => by
      obtain ⟨i, σ₁, hi, h⟩ := bind_ok.mp h
      obtain ⟨slot, σ₂, hd, h⟩ := bind_ok.mp h
      cases hd
      cases h
      exact (expr_keeps init hi).2.grows.trans declare_grows
  | .write newline value shown m, σ, σ', s', h => by
      obtain ⟨v, σ₁, hv, h⟩ := bind_ok.mp h
      cases h
      exact (expr_keeps value hv).2.grows
  | .leave _, _, _, _, h | .again _, _, _, _, h => by
      cases h
      exact Keeps.rfl.grows
  | .expr value m, σ, σ', s', h => by
      obtain ⟨v, σ₁, hv, h⟩ := bind_ok.mp h
      cases h
      exact (expr_keeps value hv).2.grows

end

/-! ### Well-typed trees -/

/-- The variables of a scope are those that have a slot. -/
def Visible (scope : Scope) (σ : Slots) : Prop :=
  σ.names.map Prod.fst = scope.vars.map Prod.fst

/-- A variable with a type has a slot. -/
theorem Visible.lookup {scope : Scope} (hv : Visible scope σ) {name : String} {t : Ty}
    (ht : scope.type? name = some t) : ∃ slot, lookup name σ = .ok (slot, σ) := by
  have hmem : name ∈ σ.names.map Prod.fst := by
    rw [hv]
    refine Decidable.byContradiction fun hne => ?_
    have hnone : scope.vars.lookup name = none := List.lookup_eq_none_iff.mpr fun v hmem =>
      bne_iff_ne.mpr fun heq => hne (List.mem_map.mpr ⟨v, hmem, heq.symm⟩)
    rw [Scope.type?, hnone] at ht
    cases ht
  rw [Resolve.lookup]
  cases hl : σ.names.lookup name with
  | some slot => exact ⟨slot, .refl _⟩
  | none =>
      obtain ⟨v, hv, rfl⟩ := List.mem_map.mp hmem
      exact absurd (List.lookup_eq_none_iff.mp hl v hv) (by simp)

theorem Visible.keeps {scope : Scope} (hv : Visible scope σ) (hk : Keeps σ σ' n) :
    Visible scope σ' := by
  rw [Visible, hk.names]
  exact hv

theorem inBlock_total {α : Type} {pass : Resolve α} {P : α → Prop}
    (h : ∃ a σ', pass σ = .ok (a, σ') ∧ P a) :
    ∃ a σ', inBlock pass σ = .ok (a, σ') ∧ σ'.names = σ.names ∧ P a := by
  obtain ⟨a, σ₁, hp, ha⟩ := h
  refine ⟨a, { σ₁ with names := σ.names }, ?_, .refl _, ha⟩
  exact bind_ok.mpr ⟨σ, σ, .refl _, bind_ok.mpr ⟨a, σ₁, hp, .refl _⟩⟩

mutual

/-- A well-typed expression can be resolved, and its exits stay in their loops. -/
theorem expr_total : ∀ (e : Expr .typed) {scope : Scope} {inLoop : Bool} {σ : Slots},
    e.WellTyped scope inLoop → Visible scope σ →
      ∃ e' σ', expr e σ = .ok (e', σ') ∧ e'.Enclosed inLoop
  | .int _ _, _, _, _, _, _ | .string _ _, _, _, _, _, _ | .bool _ _, _, _, _, _, _
  | .unit _, _, _, _, _, _ => ⟨_, _, .refl _, trivial⟩
  | .var name t, scope, inLoop, σ, h, hσ => by
      obtain ⟨slot, hl⟩ := hσ.lookup h
      exact ⟨_, _, bind_ok.mpr ⟨slot, σ, hl, .refl _⟩, trivial⟩
  | .assign name value t, scope, inLoop, σ, h, hσ => by
      obtain ⟨v, σ₁, hv, hin⟩ := expr_total value h.1 hσ
      obtain ⟨slot, hl⟩ := (hσ.keeps (expr_keeps value hv).2).lookup h.2.2
      exact ⟨_, _, bind_ok.mpr ⟨v, σ₁, hv, bind_ok.mpr ⟨slot, σ₁, hl, .refl _⟩⟩, hin⟩
  | .unary op operand t, scope, inLoop, σ, h, hσ => by
      obtain ⟨v, σ₁, hv, hin⟩ := expr_total operand h.1 hσ
      exact ⟨_, _, bind_ok.mpr ⟨v, σ₁, hv, .refl _⟩, hin⟩
  | .binary op left right t, scope, inLoop, σ, h, hσ => by
      obtain ⟨l, σ₁, hl, hinl⟩ := expr_total left h.1 hσ
      obtain ⟨r, σ₂, hr, hinr⟩ := expr_total right h.2.1 (hσ.keeps (expr_keeps left hl).2)
      exact ⟨_, _, bind_ok.mpr ⟨l, σ₁, hl, bind_ok.mpr ⟨r, σ₂, hr, .refl _⟩⟩, hinl, hinr⟩
  | .block body t, scope, inLoop, σ, h, hσ => by
      obtain ⟨b, σ₁, hb, -, hin⟩ := inBlock_total (stmts_total body h.1 hσ)
      exact ⟨_, _, bind_ok.mpr ⟨b, σ₁, hb, .refl _⟩, hin⟩
  | .choice cond body others t, scope, inLoop, σ, h, hσ => by
      obtain ⟨hc, -, hb, -, ho⟩ := h
      obtain ⟨c, σ₁, hc, hinc⟩ := expr_total cond hc hσ
      have hσ₁ := hσ.keeps (expr_keeps cond hc).2
      obtain ⟨b, σ₂, hb, hnames, hinb⟩ := inBlock_total (stmts_total body hb hσ₁)
      have hσ₂ : Visible scope σ₂ := by
        rw [Visible, hnames]
        exact hσ₁
      obtain ⟨o, σ₃, ho, hino⟩ := branches_total others ho hσ₂
      exact ⟨_, _, bind_ok.mpr ⟨c, σ₁, hc, bind_ok.mpr ⟨b, σ₂, hb, bind_ok.mpr ⟨o, σ₃, ho, .refl _⟩⟩⟩,
        hinc, hinb, hino⟩
  | .loop cond body t, scope, inLoop, σ, h, hσ => by
      obtain ⟨hc, -, hb, -⟩ := h
      obtain ⟨c, σ₁, hc, hinc⟩ := expr_total cond hc hσ
      have hσ₁ := hσ.keeps (expr_keeps cond hc).2
      obtain ⟨b, σ₂, hb, -, hinb⟩ := inBlock_total (stmts_total body hb hσ₁)
      exact ⟨_, _, bind_ok.mpr ⟨c, σ₁, hc, bind_ok.mpr ⟨b, σ₂, hb, .refl _⟩⟩, hinc, hinb⟩

theorem branches_total : ∀ (b : Branches .typed) {scope : Scope} {inLoop : Bool} {t : Ty}
    {σ : Slots}, b.WellTyped scope inLoop t → Visible scope σ →
      ∃ b' σ', branches b σ = .ok (b', σ') ∧ b'.Enclosed inLoop
  | .done, _, _, _, _, _, _ => ⟨_, _, .refl _, trivial⟩
  | .otherwise body, scope, inLoop, t, σ, h, hσ => by
      obtain ⟨b, σ₁, hb, -, hin⟩ := inBlock_total (stmts_total body h.1 hσ)
      exact ⟨_, _, bind_ok.mpr ⟨b, σ₁, hb, .refl _⟩, hin⟩
  | .orIf cond body others, scope, inLoop, t, σ, h, hσ => by
      obtain ⟨hc, -, hb, -, ho⟩ := h
      obtain ⟨c, σ₁, hc, hinc⟩ := expr_total cond hc hσ
      have hσ₁ := hσ.keeps (expr_keeps cond hc).2
      obtain ⟨b, σ₂, hb, hnames, hinb⟩ := inBlock_total (stmts_total body hb hσ₁)
      have hσ₂ : Visible scope σ₂ := by
        rw [Visible, hnames]
        exact hσ₁
      obtain ⟨o, σ₃, ho, hino⟩ := branches_total others ho hσ₂
      exact ⟨_, _, bind_ok.mpr ⟨c, σ₁, hc, bind_ok.mpr ⟨b, σ₂, hb, bind_ok.mpr ⟨o, σ₃, ho, .refl _⟩⟩⟩,
        hinc, hinb, hino⟩

theorem stmts_total : ∀ (body : List (Stmt .typed)) {scope : Scope} {inLoop : Bool} {σ : Slots},
    Body.WellTyped scope inLoop body → Visible scope σ →
      ∃ b' σ', stmts body σ = .ok (b', σ') ∧ Body.Enclosed inLoop b'
  | [], _, _, _, _, _ => ⟨_, _, .refl _, trivial⟩
  | s :: rest, scope, inLoop, σ, h, hσ => by
      obtain ⟨hs, -, hr⟩ := h
      obtain ⟨s', σ₁, hs, hins, hσ₁⟩ := stmt_total s hs hσ
      obtain ⟨rest', σ₂, hr, hinr⟩ := stmts_total rest hr hσ₁
      exact ⟨_, _, bind_ok.mpr ⟨s', σ₁, hs, bind_ok.mpr ⟨rest', σ₂, hr, .refl _⟩⟩, hins, hinr⟩

/-- A well-typed statement can be resolved, and what is in scope behind it has slots. -/
theorem stmt_total : ∀ (s : Stmt .typed) {scope : Scope} {inLoop : Bool} {σ : Slots},
    s.WellTyped scope inLoop → Visible scope σ →
      ∃ s' σ', stmt s σ = .ok (s', σ') ∧ s'.Enclosed inLoop ∧ Visible (scope.after s) σ'
  | .declare type name init m, scope, inLoop, σ, h, hσ => by
      obtain ⟨i, σ₁, hi, hin⟩ := expr_total init h.2.1 hσ
      refine ⟨_, _, bind_ok.mpr ⟨i, σ₁, hi, bind_ok.mpr ⟨σ₁.next, _, .refl _, .refl _⟩⟩, hin, ?_⟩
      exact congrArg (name :: ·) (hσ.keeps (expr_keeps init hi).2)
  | .write newline value shown m, scope, inLoop, σ, h, hσ => by
      obtain ⟨v, σ₁, hv, hin⟩ := expr_total value h.1 hσ
      exact ⟨_, _, bind_ok.mpr ⟨v, σ₁, hv, .refl _⟩, hin, hσ.keeps (expr_keeps value hv).2⟩
  | .leave _, _, _, _, h, hσ | .again _, _, _, _, h, hσ => ⟨_, _, .refl _, h.1, hσ⟩
  | .expr value m, scope, inLoop, σ, h, hσ => by
      obtain ⟨v, σ₁, hv, hin⟩ := expr_total value h.1 hσ
      exact ⟨_, _, bind_ok.mpr ⟨v, σ₁, hv, .refl _⟩, hin, hσ.keeps (expr_keeps value hv).2⟩

end

end Resolve

/-! ### Evaluations side by side -/

namespace Storage

/-- The slots of the visible variables hold their values. -/
structure Agree (size : Nat) (names : List (String × Nat)) (slots : Array Datum)
    (vars : List (String × Datum)) : Prop where
  size_eq : slots.size = size
  values : List.Forall₂ (fun n v => n.1 = v.1 ∧ slots[n.2]? = some v.2) names vars

variable {size : Nat} {names : List (String × Nat)} {slots : Array Datum}
  {vars : List (String × Datum)} {name : String} {slot : Nat}

/-- A name and its slot hold the same value. -/
theorem Agree.get (h : Agree size names slots vars) (hl : names.lookup name = some slot) :
    slots[slot]? = vars.lookup name := by
  obtain ⟨-, hvalues⟩ := h
  induction hvalues with
  | nil => cases hl
  | @cons n v names vars hhead _ ih =>
      rw [List.lookup_cons] at hl ⊢
      rw [← hhead.1]
      cases hname : name == n.1 with
      | true =>
          rw [hname] at hl
          cases hl
          exact hhead.2
      | false =>
          rw [hname] at hl
          exact ih hl

theorem mem_of_lookup (hl : names.lookup name = some slot) : slot ∈ names.map Prod.snd := by
  induction names with
  | nil => cases hl
  | cons n names ih =>
      rw [List.lookup_cons] at hl
      cases hname : name == n.1 with
      | true =>
          rw [hname] at hl
          cases hl
          exact List.mem_cons_self
      | false =>
          rw [hname] at hl
          exact List.mem_cons_of_mem _ (ih hl)

/-- A slot that belongs to none of the variables may be written to. -/
theorem values_setIfInBounds {d : Datum} (hslot : slot ∉ names.map Prod.snd)
    (h : List.Forall₂ (fun n v => n.1 = v.1 ∧ slots[n.2]? = some v.2) names vars) :
    List.Forall₂ (fun n v => n.1 = v.1 ∧ (slots.setIfInBounds slot d)[n.2]? = some v.2)
      names vars := by
  induction h with
  | nil => exact .nil
  | cons hhead _ ih =>
      rw [List.map_cons, List.mem_cons, not_or] at hslot
      obtain ⟨hne, hslot⟩ := hslot
      refine .cons ⟨hhead.1, ?_⟩ (ih hslot)
      rw [Array.getElem?_setIfInBounds_ne hne]
      exact hhead.2

/-- Assigning to a slot is assigning to its name, since no other name has the slot. -/
theorem values_update? {d : Datum} (hnodup : (names.map Prod.snd).Nodup)
    (hl : names.lookup name = some slot) (hslot : slot < slots.size)
    (h : List.Forall₂ (fun n v => n.1 = v.1 ∧ slots[n.2]? = some v.2) names vars) :
    ∃ vars', update? vars name d = some vars' ∧
      List.Forall₂ (fun n v => n.1 = v.1 ∧ (slots.setIfInBounds slot d)[n.2]? = some v.2)
        names vars' := by
  induction h with
  | nil => cases hl
  | @cons n v names vars hhead htail ih =>
      obtain ⟨hfresh, hnodup⟩ := List.nodup_cons.mp hnodup
      rw [List.lookup_cons] at hl
      rw [update?, ← hhead.1]
      cases hname : name == n.1 with
      | true =>
          rw [hname] at hl
          cases hl
          refine ⟨_, rfl, .cons ⟨rfl, ?_⟩ (values_setIfInBounds hfresh htail)⟩
          rw [Array.getElem?_setIfInBounds_self_of_lt hslot]
      | false =>
          rw [hname] at hl
          obtain ⟨vars', hset, hvalues⟩ := ih hnodup hl
          refine ⟨(n.1, v.2) :: vars', by simp [hset], .cons ⟨rfl, ?_⟩ hvalues⟩
          have hne : slot ≠ n.2 := fun heq => hfresh (heq ▸ mem_of_lookup hl)
          rw [Array.getElem?_setIfInBounds_ne hne]
          exact hhead.2

theorem Agree.set {d : Datum} (h : Agree size names slots vars)
    (hnodup : (names.map Prod.snd).Nodup) (hl : names.lookup name = some slot)
    (hslot : slot < size) :
    ∃ slots' vars', slotted.set? slots slot d = some slots' ∧ named.set? vars name d = some vars' ∧
      Agree size names slots' vars' := by
  have hlt : slot < slots.size := h.size_eq ▸ hslot
  obtain ⟨vars', hset, hvalues⟩ := values_update? (d := d) hnodup hl hlt h.values
  refine ⟨slots.setIfInBounds slot d, vars', if_pos hlt, hset, ?_, hvalues⟩
  rw [Array.size_setIfInBounds, h.size_eq]

theorem Agree.declare {d : Datum} (h : Agree size names slots vars) (hslot : slot < size)
    (hfresh : slot ∉ names.map Prod.snd) :
    ∃ slots' vars', slotted.declare? slots slot d = some slots' ∧
      named.declare? vars name d = some vars' ∧ Agree size ((name, slot) :: names) slots' vars' := by
  have hlt : slot < slots.size := h.size_eq ▸ hslot
  refine ⟨slots.setIfInBounds slot d, (name, d) :: vars, if_pos hlt, rfl, ?_, ?_⟩
  · rw [Array.size_setIfInBounds, h.size_eq]
  · refine .cons ⟨rfl, ?_⟩ (values_setIfInBounds hfresh h.values)
    rw [Array.getElem?_setIfInBounds_self_of_lt hlt]

/-- The slots of the visible variables, some of which may have been declared lately, hold their
values. -/
def Covers (size : Nat) (names : List (String × Nat)) (slots : Array Datum)
    (vars : List (String × Datum)) : Prop :=
  ∃ names', names <:+ names' ∧ Agree size names' slots vars

theorem Agree.covers (h : Agree size names slots vars) : Covers size names slots vars :=
  ⟨names, List.suffix_refl _, h⟩

theorem Covers.mono {names' : List (String × Nat)} (h : Covers size names' slots vars)
    (hsuffix : names <:+ names') : Covers size names slots vars := by
  obtain ⟨names'', hsuffix', hagree⟩ := h
  exact ⟨names'', hsuffix.trans hsuffix', hagree⟩

/-- Behind a block the variables in front of it still agree. -/
theorem Agree.close {slots' : Array Datum} {vars' : List (String × Datum)}
    (h : Agree size names slots vars) (h' : Covers size names slots' vars') :
    Agree size names (slotted.close slots slots') (named.close vars vars') := by
  obtain ⟨names', hsuffix, h'⟩ := h'
  refine ⟨h'.size_eq, ?_⟩
  have hdrop := List.forall₂_drop (names'.length - names.length) h'.values
  rw [← List.suffix_iff_eq_drop.mp hsuffix, h.values.length_eq, h'.values.length_eq] at hdrop
  exact hdrop

end Storage

namespace Eval

open Storage Sequence

/-- Two evaluations, with slots and with names, that give the same result and print the same, and
take related variables to related variables. -/
def Alike {α : Type} (pre fine stopped : Array Datum → List (String × Datum) → Prop)
    (x : Eval slotted.Vars α) (y : Eval named.Vars α) : Prop :=
  ∀ (slots : Array Datum) (vars : List (String × Datum)) (output : String), pre slots vars →
    ∃ (r : Except Stop α) (slots' : Array Datum) (vars' : List (String × Datum)) (output' : String),
      x ⟨slots, output⟩ = (r, ⟨slots', output'⟩) ∧ y ⟨vars, output⟩ = (r, ⟨vars', output'⟩) ∧
        match r with
        | .ok _ => fine slots' vars'
        | .error _ => stopped slots' vars'

section Rules

variable {α β : Type} {pre mid fine stopped : Array Datum → List (String × Datum) → Prop}
  {x : Eval slotted.Vars α} {y : Eval named.Vars α}

theorem Alike.pure (a : α) : Alike pre pre stopped (pure a) (pure a) :=
  fun slots vars output h => ⟨.ok a, slots, vars, output, rfl, rfl, h⟩

theorem Alike.stop (why : Stop) : Alike stopped pre stopped (stop why : Eval _ α) (Eval.stop why) :=
  fun slots vars output h => ⟨.error why, slots, vars, output, rfl, rfl, h⟩

theorem Alike.bind {f : α → Eval slotted.Vars β} {g : α → Eval named.Vars β}
    (h : Alike pre mid stopped x y) (hf : ∀ a, Alike mid fine stopped (f a) (g a)) :
    Alike pre fine stopped (x >>= f) (y >>= g) := by
  intro slots vars output hpre
  obtain ⟨r, slots', vars', output', hx, hy, hr⟩ := h slots vars output hpre
  rw [bind_apply, bind_apply, hx, hy]
  cases r with
  | ok a => exact hf a slots' vars' output' hr
  | error why => exact ⟨.error why, slots', vars', output', rfl, rfl, hr⟩

theorem Alike.mono {fine' stopped' : Array Datum → List (String × Datum) → Prop}
    (h : Alike pre fine stopped x y) (hfine : ∀ s v, fine s v → fine' s v)
    (hstopped : ∀ s v, stopped s v → stopped' s v) : Alike pre fine' stopped' x y := by
  intro slots vars output hpre
  obtain ⟨r, slots', vars', output', hx, hy, hr⟩ := h slots vars output hpre
  refine ⟨r, slots', vars', output', hx, hy, ?_⟩
  cases r with
  | ok a => exact hfine _ _ hr
  | error why => exact hstopped _ _ hr

theorem Alike.ite {x' : Eval slotted.Vars α} {y' : Eval named.Vars α} (b : Bool)
    (h : Alike pre fine stopped x y) (h' : Alike pre fine stopped x' y') :
    Alike pre fine stopped (if b then x else x') (if b then y else y') := by
  cases b with
  | true => exact h
  | false => exact h'

theorem Alike.change {f : Array Datum → Option (Array Datum)}
    {g : List (String × Datum) → Option (List (String × Datum))}
    (h : ∀ slots vars, pre slots vars →
      ∃ slots' vars', f slots = some slots' ∧ g vars = some vars' ∧ fine slots' vars') :
    Alike pre fine stopped (change f : Eval slotted.Vars Unit) (Eval.change g) := by
  intro slots vars output hpre
  obtain ⟨slots', vars', hf, hg, hfine⟩ := h slots vars hpre
  refine ⟨.ok (), slots', vars', output, ?_, ?_, hfine⟩
  · simp only [Eval.change, hf]
  · simp only [Eval.change, hg]

theorem Alike.print (text : String) :
    Alike pre pre stopped (print text : Eval slotted.Vars Unit) (Eval.print text) :=
  fun slots vars output h => ⟨.ok (), slots, vars, output ++ text, rfl, rfl, h⟩

theorem Alike.need (a : Option α) :
    Alike pre pre pre (need a : Eval slotted.Vars α) (Eval.need a) := by
  cases a with
  | some a => exact .pure a
  | none => exact .stop _

theorem Alike.truth (d : Datum) :
    Alike pre pre pre (truth d : Eval slotted.Vars Bool) (Eval.truth d) := by
  cases d with
  | bool b => exact .pure b
  | _ => exact .stop _

theorem Alike.result (r : Option (Except RuntimeCause Datum)) :
    Alike pre pre pre (result r : Eval slotted.Vars Datum) (Eval.result r) := by
  rcases r with _ | r
  · exact .stop _
  · cases r with
    | ok d => exact .pure d
    | error cause => exact .stop _

theorem Alike.inBlock {size : Nat} {names : List (String × Nat)}
    (h : Alike (Agree size names) (Covers size names) (Covers size names) x y) :
    Alike (Agree size names) (Agree size names) (Agree size names) (inBlock slotted x)
      (Eval.inBlock named y) := by
  intro slots vars output hpre
  obtain ⟨r, slots', vars', output', hx, hy, hr⟩ := h slots vars output hpre
  refine ⟨r, slotted.close slots slots', named.close vars vars', output', ?_, ?_, ?_⟩
  · simp only [Eval.inBlock, hx]
  · simp only [Eval.inBlock, hy]
  · cases r with
    | ok a => exact hpre.close hr
    | error why => exact hpre.close hr

theorem Alike.attempt {x : Eval slotted.Vars Datum} {y : Eval named.Vars Datum}
    (h : Alike pre pre pre x y) : Alike pre pre pre (attempt x) (Eval.attempt y) := by
  intro slots vars output hpre
  obtain ⟨r, slots', vars', output', hx, hy, hr⟩ := h slots vars output hpre
  simp only [Eval.attempt, hx, hy]
  cases r with
  | ok d => exact ⟨_, _, _, _, rfl, rfl, hr⟩
  | error why => cases why <;> exact ⟨_, _, _, _, rfl, rfl, hr⟩

theorem Alike.iterate {x : Eval slotted.Vars Bool} {y : Eval named.Vars Bool}
    (h : Alike pre pre pre x y) : ∀ n, Alike pre pre pre (iterate x n) (Eval.iterate y n)
  | 0 => .stop _
  | n + 1 => h.bind fun goesOn => .ite goesOn (Alike.iterate h n) (.pure _)

end Rules

section Trees

variable (rounds : Nat) {size : Nat}

mutual

/-- An expression and its resolved form have the same value and output, from variables that agree. -/
theorem expr_alike : ∀ (e : Expr .typed) {σ σ' : Slots} {e' : Expr .resolved},
    Resolve.expr e σ = .ok (e', σ') → σ.Tidy → σ'.next ≤ size →
      Alike (Agree size σ.names) (Agree size σ.names) (Agree size σ.names)
        (expr slotted rounds e') (expr named rounds e)
  | .int _ _, _, _, _, h, _, _ | .string _ _, _, _, _, h, _, _ | .bool _ _, _, _, _, h, _, _
  | .unit _, _, _, _, h, _, _ => by
      cases h
      exact .pure _
  | .var name t, σ, σ', e', h, _, _ => by
      obtain ⟨slot, σ₁, hlook, h⟩ := bind_ok.mp h
      obtain ⟨hl, rfl⟩ := Resolve.lookup_ok hlook
      cases h
      intro slots vars output hpre
      have hslot : expr slotted rounds (.var slot t) ⟨slots, output⟩ =
          need (vars.lookup name) ⟨slots, output⟩ := by
        rw [← hpre.get hl]
        rfl
      rw [hslot]
      exact Alike.need (vars.lookup name) slots vars output hpre
  | .assign name value t, σ, σ', e', h, ht, hsize => by
      obtain ⟨v, σ₁, hv, h⟩ := bind_ok.mp h
      obtain ⟨slot, σ₂, hlook, h⟩ := bind_ok.mp h
      obtain ⟨hl, rfl⟩ := Resolve.lookup_ok hlook
      cases h
      have hk := (Resolve.expr_keeps value hv).2
      have hslot : slot < size := by
        obtain ⟨n, hn, rfl⟩ := List.mem_map.mp (mem_of_lookup hl)
        exact Nat.lt_of_lt_of_le ((hk.tidy ht).bound n hn) hsize
      rw [hk.names] at hl
      rw [expr, expr]
      refine (expr_alike value hv ht hsize).bind fun d => ?_
      refine .bind (.change fun slots vars hagree => ?_) fun _ => .pure d
      exact hagree.set ht.nodup hl hslot
  | .unary op operand t, σ, σ', e', h, ht, hsize => by
      obtain ⟨v, σ₁, hv, h⟩ := bind_ok.mp h
      cases h
      rw [expr, expr]
      exact (expr_alike operand hv ht hsize).bind fun d => .need _
  | .binary op left right t, σ, σ', e', h, ht, hsize => by
      obtain ⟨l, σ₁, hl, h⟩ := bind_ok.mp h
      obtain ⟨r, σ₂, hr, h⟩ := bind_ok.mp h
      cases h
      obtain ⟨htag, hk⟩ := Resolve.expr_keeps left hl
      have hnext := (Resolve.expr_keeps right hr).2.next
      have hright := expr_alike right hr (hk.tidy ht) hsize
      rw [hk.names] at hright
      rw [expr, expr, htag]
      refine (expr_alike left hl ht (by omega)).bind fun a => ?_
      exact hright.bind fun b => .result _
  | .block body t, σ, σ', e', h, ht, hsize => by
      obtain ⟨b, σ₁, hb, h⟩ := bind_ok.mp h
      obtain ⟨σ₂, hs, rfl⟩ := Resolve.inBlock_ok hb
      cases h
      rw [expr, expr]
      exact .inBlock (stmts_alike body hs ht hsize)
  | .choice cond body others t, σ, σ', e', h, ht, hsize => by
      obtain ⟨c, σ₁, hc, h⟩ := bind_ok.mp h
      obtain ⟨b, σ₂, hb, h⟩ := bind_ok.mp h
      obtain ⟨σ₃, hs, rfl⟩ := Resolve.inBlock_ok hb
      obtain ⟨o, σ₄, ho, h⟩ := bind_ok.mp h
      cases h
      have hk := (Resolve.expr_keeps cond hc).2
      have hnb := (Resolve.stmts_grows body hs).next
      have hkb : Resolve.Keeps σ₁ { σ₃ with names := σ₁.names } _ := ⟨rfl, hnb⟩
      have hno := (Resolve.branches_keeps others ho).next
      simp only at hno
      have hbody := stmts_alike body hs (hk.tidy ht) (by omega)
      have hothers := branches_alike others ho (hkb.tidy (hk.tidy ht)) hsize
      rw [hk.names] at hbody
      rw [hkb.names, hk.names] at hothers
      rw [expr, expr]
      refine (expr_alike cond hc ht (by omega)).bind fun d => ?_
      exact (Alike.truth d).bind fun goes => .ite goes (.inBlock hbody) hothers
  | .loop cond body t, σ, σ', e', h, ht, hsize => by
      obtain ⟨c, σ₁, hc, h⟩ := bind_ok.mp h
      obtain ⟨b, σ₂, hb, h⟩ := bind_ok.mp h
      obtain ⟨σ₃, hs, rfl⟩ := Resolve.inBlock_ok hb
      cases h
      have hk := (Resolve.expr_keeps cond hc).2
      have hnb := (Resolve.stmts_grows body hs).next
      simp only at hsize
      have hbody := stmts_alike body hs (hk.tidy ht) hsize
      rw [hk.names] at hbody
      rw [expr, expr]
      refine Alike.iterate ?_ rounds
      refine (expr_alike cond hc ht (by omega)).bind fun d => ?_
      exact (Alike.truth d).bind fun goes => .ite goes (.attempt (.inBlock hbody)) (.pure _)

theorem branches_alike : ∀ (b : Branches .typed) {σ σ' : Slots} {b' : Branches .resolved},
    Resolve.branches b σ = .ok (b', σ') → σ.Tidy → σ'.next ≤ size →
      Alike (Agree size σ.names) (Agree size σ.names) (Agree size σ.names)
        (branches slotted rounds b') (branches named rounds b)
  | .done, _, _, _, h, _, _ => by
      cases h
      exact .pure _
  | .otherwise body, σ, σ', b', h, ht, hsize => by
      obtain ⟨b, σ₁, hb, h⟩ := bind_ok.mp h
      obtain ⟨σ₂, hs, rfl⟩ := Resolve.inBlock_ok hb
      cases h
      rw [branches, branches]
      exact .inBlock (stmts_alike body hs ht hsize)
  | .orIf cond body others, σ, σ', b', h, ht, hsize => by
      obtain ⟨c, σ₁, hc, h⟩ := bind_ok.mp h
      obtain ⟨b, σ₂, hb, h⟩ := bind_ok.mp h
      obtain ⟨σ₃, hs, rfl⟩ := Resolve.inBlock_ok hb
      obtain ⟨o, σ₄, ho, h⟩ := bind_ok.mp h
      cases h
      have hk := (Resolve.expr_keeps cond hc).2
      have hnb := (Resolve.stmts_grows body hs).next
      have hkb : Resolve.Keeps σ₁ { σ₃ with names := σ₁.names } _ := ⟨rfl, hnb⟩
      have hno := (Resolve.branches_keeps others ho).next
      simp only at hno
      have hbody := stmts_alike body hs (hk.tidy ht) (by omega)
      have hothers := branches_alike others ho (hkb.tidy (hk.tidy ht)) hsize
      rw [hk.names] at hbody
      rw [hkb.names, hk.names] at hothers
      rw [branches, branches]
      refine (expr_alike cond hc ht (by omega)).bind fun d => ?_
      exact (Alike.truth d).bind fun goes => .ite goes (.inBlock hbody) hothers

/-- A body and its resolved form do the same; behind them the variables around still agree. -/
theorem stmts_alike : ∀ (body : List (Stmt .typed)) {σ σ' : Slots} {b' : Body .resolved},
    Resolve.stmts body σ = .ok (b', σ') → σ.Tidy → σ'.next ≤ size →
      Alike (Agree size σ.names) (Covers size σ.names) (Covers size σ.names)
        (stmts slotted rounds b') (stmts named rounds body)
  | [], σ, _, _, h, _, _ => by
      cases h
      exact (Alike.pure _).mono (fun _ _ h => h.covers) fun _ _ h => h
  | s :: rest, σ, σ', b', h, ht, hsize => by
      obtain ⟨s', σ₁, hs, h⟩ := bind_ok.mp h
      obtain ⟨rest', σ₂, hr, h⟩ := bind_ok.mp h
      cases h
      have hg := Resolve.stmt_grows s hs
      have hnext := (Resolve.stmts_grows rest hr).next
      have hrest := (stmts_alike rest hr (hg.tidy ht) hsize).mono (fun _ _ h => h.mono hg.names)
        fun _ _ h => h.mono hg.names
      rw [stmts, stmts]
      refine ((stmt_alike s hs ht (by omega)).mono (fun _ _ h => h) fun _ _ h => h.covers).bind
        fun d => ?_
      cases rest with
      | nil =>
          cases hr
          exact (Alike.pure d).mono (fun _ _ h => h.covers.mono hg.names) fun _ _ h => h
      | cons next rest =>
          obtain ⟨next', σ₂, -, h⟩ := bind_ok.mp hr
          obtain ⟨rest', σ₃, -, h⟩ := bind_ok.mp h
          cases h
          exact hrest

/-- A statement and its resolved form do the same, and a declared variable agrees with its slot. -/
theorem stmt_alike : ∀ (s : Stmt .typed) {σ σ' : Slots} {s' : Stmt .resolved},
    Resolve.stmt s σ = .ok (s', σ') → σ.Tidy → σ'.next ≤ size →
      Alike (Agree size σ.names) (Agree size σ'.names) (Agree size σ.names)
        (stmt slotted rounds s') (stmt named rounds s)
  | .declare type name init m, σ, σ', s', h, ht, hsize => by
      obtain ⟨i, σ₁, hi, h⟩ := bind_ok.mp h
      obtain ⟨slot, σ₂, hd, h⟩ := bind_ok.mp h
      cases hd
      cases h
      have hk := (Resolve.expr_keeps init hi).2
      have hfresh : σ₁.next ∉ σ.names.map Prod.snd := fun hmem => by
        obtain ⟨n, hn, heq⟩ := List.mem_map.mp hmem
        exact absurd ((hk.tidy ht).bound n (hk.names ▸ hn)) (by omega)
      simp only [hk.names] at hsize ⊢
      rw [stmt, stmt]
      refine (expr_alike init hi ht (by omega)).bind fun d => ?_
      exact .bind (.change fun slots vars hagree => hagree.declare hsize hfresh) fun _ => .pure _
  | .write newline value shown m, σ, σ', s', h, ht, hsize => by
      obtain ⟨v, σ₁, hv, h⟩ := bind_ok.mp h
      cases h
      rw [(Resolve.expr_keeps value hv).2.names, stmt, stmt]
      refine (expr_alike value hv ht hsize).bind fun d => ?_
      exact (Alike.print _).bind fun _ => .pure _
  | .leave _, _, _, _, h, _, _ | .again _, _, _, _, h, _, _ => by
      cases h
      exact .stop _
  | .expr value m, σ, σ', s', h, ht, hsize => by
      obtain ⟨v, σ₁, hv, h⟩ := bind_ok.mp h
      cases h
      rw [(Resolve.expr_keeps value hv).2.names, stmt, stmt]
      exact expr_alike value hv ht hsize

end

end Trees

end Eval

theorem resolve_ok {program : Body .typed} {body : Body .resolved} {slots : Nat} :
    resolve program = .ok (body, slots) ↔
      ∃ σ, Resolve.stmts program {} = .ok (body, σ) ∧ σ.next = slots := by
  rw [resolve, StateT.run]
  cases Resolve.stmts program {} with
  | error u => simp [Except.map]
  | ok r =>
      rcases r with ⟨body', σ⟩
      simp [Except.map, eq_comm]

/-- A well-typed program can be resolved. -/
theorem Body.WellTyped.resolves {program : Body .typed} (h : Body.WellTyped {} false program) :
    ∃ body slots, resolve program = .ok (body, slots) ∧ Body.Enclosed false body := by
  obtain ⟨body, σ, hs, hin⟩ := Resolve.stmts_total program h (σ := {}) rfl
  exact ⟨body, σ.next, resolve_ok.mpr ⟨σ, hs, rfl⟩, hin⟩

/-- The number of slots is the number of declarations. -/
theorem resolve_slots {program : Body .typed} {body : Body .resolved} {slots : Nat}
    (h : resolve program = .ok (body, slots)) : slots = Body.declarations body := by
  obtain ⟨σ, hs, rfl⟩ := resolve_ok.mp h
  rw [(Resolve.stmts_grows program hs).next]
  exact Nat.zero_add _

/-- A resolved program means what the program means. -/
theorem resolve_alike {program : Body .typed} {body : Body .resolved} {slots : Nat}
    (h : resolve program = .ok (body, slots)) (rounds : Nat) :
    ∃ r vars vars' output,
      Eval.stmts .slotted rounds body { vars := Array.replicate slots .unit, output := "" } =
        (r, { vars, output }) ∧
      Eval.stmts .named rounds program { vars := [], output := "" } =
        (r, { vars := vars', output }) := by
  obtain ⟨σ, hs, rfl⟩ := resolve_ok.mp h
  have htidy : ({} : Slots).Tidy := ⟨List.nodup_nil, nofun⟩
  obtain ⟨r, vars, vars', output, hx, hy, -⟩ :=
    Eval.stmts_alike rounds program hs htidy (Nat.le_refl _) (Array.replicate σ.next .unit) [] ""
      ⟨Array.size_replicate, .nil⟩
  exact ⟨r, vars, vars', output, hx, hy⟩

end BlockLang

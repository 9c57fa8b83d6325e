import BlockLang.Proofs.Sequence
import BlockLang.Tree.Check

/-! Well-typed trees. The rules of the language are stated on the typed tree: every tag is the type
that its node has by the rules, given the types of the variables it sees and whether it stands in the
body of a loop. What a checker accepts obeys the rules. -/

namespace BlockLang

def UnaryOp.Typed (operand result : Ty) : UnaryOp → Prop
  | negate => operand = .int ∧ result = .int
  | not => operand = .bool ∧ result = .bool
  | stringify => result = .string

/-- The type of an operation on two operands. -/
def BinaryOp.Typed (left right result : Ty) : BinaryOp → Prop
  | or | and => left = .bool ∧ right = .bool ∧ result = .bool
  | eq | neq => left = right ∧ result = .bool
  | lt | lte | gt | gte => left = .int ∧ right = .int ∧ result = .bool
  | add => left = right ∧ (left = .int ∨ left = .string) ∧ result = left
  | sub | mul | div | rem => left = .int ∧ right = .int ∧ result = .int

def Scope.after (scope : Scope) : Stmt .typed → Scope
  | .declare type name _ _ => scope.declare name type
  | _ => scope

mutual

/-- An expression obeys the rules. -/
def Expr.WellTyped : Scope → Bool → Expr .typed → Prop
  | _, _, .int _ t => t = .int
  | _, _, .string _ t => t = .string
  | _, _, .bool _ t => t = .bool
  | _, _, .unit t => t = .unit
  | scope, _, .var name t => scope.type? name = some t
  | scope, inLoop, .assign name value t =>
    value.WellTyped scope inLoop ∧ value.tag = t ∧ scope.type? name = some t
  | scope, inLoop, .unary op operand t =>
    operand.WellTyped scope inLoop ∧ op.Typed operand.tag t
  | scope, inLoop, .binary op left right t =>
    left.WellTyped scope inLoop ∧ right.WellTyped scope inLoop ∧ op.Typed left.tag right.tag t
  | scope, inLoop, .block body t =>
    Body.WellTyped scope.child inLoop body ∧ t = Check.bodyType body
  | scope, inLoop, .choice cond body others t =>
    cond.WellTyped scope inLoop ∧ cond.tag = .bool ∧ Body.WellTyped scope.child inLoop body ∧
      t = Check.bodyType body ∧ others.WellTyped scope inLoop t
  | scope, inLoop, .loop cond body t =>
    cond.WellTyped scope inLoop ∧ cond.tag = .bool ∧ Body.WellTyped scope.child true body ∧
      t = .unit

/-- The later branches of a choice obey the rules and have the type of the first body. -/
def Branches.WellTyped : Scope → Bool → Branches .typed → Ty → Prop
  | _, _, .done, t => t = .unit
  | scope, inLoop, .otherwise body, t =>
    Body.WellTyped scope.child inLoop body ∧ t = Check.bodyType body
  | scope, inLoop, .orIf cond body others, t =>
    cond.WellTyped scope inLoop ∧ cond.tag = .bool ∧ Body.WellTyped scope.child inLoop body ∧
      t = Check.bodyType body ∧ others.WellTyped scope inLoop t

/-- The statements of a body obey the rules, one after the other; nothing follows a statement that
hands control to a loop. -/
def Body.WellTyped : Scope → Bool → List (Stmt .typed) → Prop
  | _, _, [] => True
  | scope, inLoop, s :: rest =>
    s.WellTyped scope inLoop ∧ (Check.endsFlow s → rest = []) ∧
      Body.WellTyped (scope.after s) inLoop rest

/-- A statement obeys the rules. -/
def Stmt.WellTyped : Scope → Bool → Stmt .typed → Prop
  | scope, inLoop, .declare type name init m =>
    name ∉ scope.declared ∧ init.WellTyped scope inLoop ∧ init.tag = type ∧ m = .unit
  | scope, inLoop, .write _ value shown m =>
    value.WellTyped scope inLoop ∧ shown = value.tag ∧ m = .unit
  | _, inLoop, .leave m => inLoop ∧ m = .unit
  | _, inLoop, .again m => inLoop ∧ m = .unit
  | scope, inLoop, .expr value m => value.WellTyped scope inLoop ∧ m = value.tag

end

namespace Check

open Sequence

theorem ite_ok {p : Prop} [Decidable p] {a t : Ty} {cause : TypeCause} :
    (if p then Except.ok a else .error cause) = .ok t ↔ p ∧ t = a := by
  by_cases hp : p
  · simp [hp, eq_comm]
  · simp [hp]

theorem unaryType_ok {op : UnaryOp} {operand t : Ty} :
    unaryType op operand = .ok t ↔ op.Typed operand t := by
  cases op with
  | stringify => simp [unaryType, UnaryOp.Typed, eq_comm]
  | _ => exact ite_ok

theorem binaryType_ok {op : BinaryOp} {left right t : Ty} :
    binaryType op left right = .ok t ↔ op.Typed left right t := by
  cases op <;> simp [binaryType, BinaryOp.Typed, ite_ok, and_assoc]

/-- A check that leaves scope and loop as they were. -/
structure Keeps (c c' : Checker) : Prop where
  scope : c'.scope = c.scope
  inLoop : c'.inLoop = c.inLoop

theorem Keeps.rfl {c : Checker} : Keeps c c := ⟨.refl _, .refl _⟩

theorem Keeps.trans {c c' c'' : Checker} (h : Keeps c c') (h' : Keeps c' c'') : Keeps c c'' :=
  ⟨h'.scope.trans h.scope, h'.inLoop.trans h.inLoop⟩

section Pieces

variable {α : Type} {c c' : Checker} {x : Check α} {a : α}

theorem require_fine {holds : Bool} {cause : TypeCause} {u : Unit}
    (h : require holds cause c = (.ok u, c')) : holds = true ∧ c = c' := by
  cases holds with
  | true => exact ⟨.refl _, (Prod.mk.inj h).2⟩
  | false => cases h

theorem lookup_fine {name : String} {t : Ty} (h : lookup name c = (.ok t, c')) :
    c.scope.type? name = some t ∧ c = c' := by
  rw [lookup] at h
  cases ht : c.scope.type? name with
  | none =>
      rw [ht] at h
      cases h
  | some t' =>
      rw [ht] at h
      cases h
      exact ⟨.refl _, .refl _⟩

theorem lift_fine {r : Except TypeCause α} (h : lift r c = (.ok a, c')) : r = .ok a ∧ c = c' := by
  cases r with
  | error cause => cases h
  | ok a' =>
      cases h
      exact ⟨.refl _, .refl _⟩

theorem warn_keeps {concern : Concern} {u : Unit} (h : warn concern c = (.ok u, c')) :
    Keeps c c' := by
  cases h
  exact ⟨.refl _, .refl _⟩

theorem warned_fine {noted : Bool} {concern : Concern} {f : Unit → Check α}
    (h : (if noted then warn concern >>= f else f ()) c = (.ok a, c')) :
    ∃ c₁, Keeps c c₁ ∧ f () c₁ = (.ok a, c') := by
  cases noted with
  | true =>
      obtain ⟨_, c₁, hw, h⟩ := bind_fine.mp h
      exact ⟨c₁, warn_keeps hw, h⟩
  | false => exact ⟨c, .rfl, h⟩

theorem condition_fine {construct : String} {cond : Expr .parsed} {t : Ty} {u : Unit}
    (h : condition construct cond t c = (.ok u, c')) : t = .bool ∧ Keeps c c' := by
  obtain ⟨_, c₁, hreq, h⟩ := bind_fine.mp h
  obtain ⟨ht, rfl⟩ := require_fine hreq
  refine ⟨of_decide_eq_true ht, ?_⟩
  cases cond with
  | bool value tag => exact warn_keeps h
  | _ =>
      cases h
      exact .rfl

theorem inBlock_fine (h : inBlock x c = (.ok a, c')) :
    ∃ c₁, x { c with scope := c.scope.child } = (.ok a, c₁) ∧ { c₁ with scope := c.scope } = c' := by
  rcases hx : x { c with scope := c.scope.child } with ⟨r, c₁⟩
  have h' : (r, { c₁ with scope := c.scope }) = (Except.ok a, c') := by
    rw [← h, inBlock, bracket, hx]
  cases h'
  exact ⟨c₁, .refl _, .refl _⟩

theorem inLoop_fine (h : inLoop x c = (.ok a, c')) :
    ∃ c₁, x { c with inLoop := true } = (.ok a, c₁) ∧ { c₁ with inLoop := c.inLoop } = c' := by
  rcases hx : x { c with inLoop := true } with ⟨r, c₁⟩
  have h' : (r, { c₁ with inLoop := c.inLoop }) = (Except.ok a, c') := by
    rw [← h, inLoop, bracket, hx]
  cases h'
  exact ⟨c₁, .refl _, .refl _⟩

theorem atStmt_fine {token : Token} (h : atStmt token x c = (.ok a, c')) :
    ∃ c₁, x { c with stmt := token } = (.ok a, c₁) ∧ { c₁ with stmt := c.stmt } = c' := by
  rcases hx : x { c with stmt := token } with ⟨r, c₁⟩
  have h' : (r, { c₁ with stmt := c.stmt }) = (Except.ok a, c') := by
    rw [← h, atStmt, bracket, hx]
  cases h'
  exact ⟨c₁, .refl _, .refl _⟩

theorem followed_fine {s : Stmt .parsed} {rest : Body .parsed} {u : Unit}
    (h : followed s rest c = (.ok u, c')) : (endsFlow s → rest = []) ∧ c = c' := by
  cases rest with
  | nil => exact ⟨fun _ => .refl _, (Prod.mk.inj h).2⟩
  | cons next rest =>
      rw [followed] at h
      cases hs : endsFlow s with
      | true =>
          rw [hs, if_pos (.refl _)] at h
          cases h
      | false =>
          rw [hs, if_neg Bool.false_ne_true] at h
          cases h
          exact ⟨nofun, .refl _⟩

end Pieces

mutual

/-- What the checker makes of an expression is well typed, and the scope is restored. -/
theorem expr_wellTyped : ∀ (e : Expr .parsed) {c c' : Checker} {e' : Expr .typed},
    expr e c = (.ok e', c') → e'.WellTyped c.scope c.inLoop ∧ Keeps c c'
  | .int _ _, _, _, _, h | .string _ _, _, _, _, h | .bool _ _, _, _, _, h | .unit _, _, _, _, h => by
      cases h
      exact ⟨.refl _, .rfl⟩
  | .var name _, c, c', e', h => by
      obtain ⟨t, c₁, hl, h⟩ := bind_fine.mp h
      obtain ⟨ht, rfl⟩ := lookup_fine hl
      cases h
      exact ⟨ht, .rfl⟩
  | .assign name value _, c, c', e', h => by
      obtain ⟨t, c₁, hl, h⟩ := bind_fine.mp h
      obtain ⟨ht, rfl⟩ := lookup_fine hl
      obtain ⟨v, c₂, hv, h⟩ := bind_fine.mp h
      obtain ⟨hwt, hk⟩ := expr_wellTyped value hv
      obtain ⟨_, c₃, hr, h⟩ := bind_fine.mp h
      obtain ⟨htag, rfl⟩ := require_fine hr
      obtain ⟨c₄, hk', h⟩ := warned_fine h
      cases h
      exact ⟨⟨hwt, of_decide_eq_true htag, ht⟩, hk.trans hk'⟩
  | .unary op operand _, c, c', e', h => by
      obtain ⟨v, c₁, hv, h⟩ := bind_fine.mp h
      obtain ⟨hwt, hk⟩ := expr_wellTyped operand hv
      obtain ⟨t, c₂, hl, h⟩ := bind_fine.mp h
      obtain ⟨ht, rfl⟩ := lift_fine hl
      cases h
      exact ⟨⟨hwt, unaryType_ok.mp ht⟩, hk⟩
  | .binary op left right _, c, c', e', h => by
      obtain ⟨l, c₁, hl, h⟩ := bind_fine.mp h
      obtain ⟨hwl, hkl⟩ := expr_wellTyped left hl
      obtain ⟨r, c₂, hr, h⟩ := bind_fine.mp h
      obtain ⟨hwr, hkr⟩ := expr_wellTyped right hr
      obtain ⟨t, c₃, hlift, h⟩ := bind_fine.mp h
      obtain ⟨ht, rfl⟩ := lift_fine hlift
      cases h
      rw [hkl.scope, hkl.inLoop] at hwr
      exact ⟨⟨hwl, hwr, binaryType_ok.mp ht⟩, hkl.trans hkr⟩
  | .block body _, c, c', e', h => by
      obtain ⟨b, c₁, hb, h⟩ := bind_fine.mp h
      obtain ⟨c₂, hs, rfl⟩ := inBlock_fine hb
      obtain ⟨hwt, hloop⟩ := stmts_wellTyped body hs
      cases h
      exact ⟨⟨hwt, .refl _⟩, ⟨.refl _, hloop⟩⟩
  | .choice cond body others _, c, c', e', h => by
      obtain ⟨cd, c₁, hc, h⟩ := bind_fine.mp h
      obtain ⟨hwc, hkc⟩ := expr_wellTyped cond hc
      obtain ⟨_, c₂, hcond, h⟩ := bind_fine.mp h
      obtain ⟨hbool, hkc'⟩ := condition_fine hcond
      obtain ⟨b, c₃, hb, h⟩ := bind_fine.mp h
      obtain ⟨c₄, hs, rfl⟩ := inBlock_fine hb
      obtain ⟨hwb, hloop⟩ := stmts_wellTyped body hs
      obtain ⟨o, c₅, ho, h⟩ := bind_fine.mp h
      obtain ⟨hwo, hko⟩ := branches_wellTyped others ho
      cases h
      have hk := hkc.trans hkc'
      have hkb : Keeps c { c₄ with scope := c₂.scope } := hk.trans ⟨.refl _, hloop⟩
      simp only [hk.scope, hk.inLoop] at hwb
      rw [hkb.scope, hkb.inLoop] at hwo
      exact ⟨⟨hwc, hbool, hwb, .refl _, hwo⟩, hkb.trans hko⟩
  | .loop cond body _, c, c', e', h => by
      obtain ⟨cd, c₁, hc, h⟩ := bind_fine.mp h
      obtain ⟨hwc, hkc⟩ := expr_wellTyped cond hc
      obtain ⟨_, c₂, hcond, h⟩ := bind_fine.mp h
      obtain ⟨hbool, hkc'⟩ := condition_fine hcond
      obtain ⟨b, c₃, hb, h⟩ := bind_fine.mp h
      obtain ⟨c₄, hl, rfl⟩ := inLoop_fine hb
      obtain ⟨c₅, hs, rfl⟩ := inBlock_fine hl
      obtain ⟨hwb, -⟩ := stmts_wellTyped body hs
      cases h
      have hk := hkc.trans hkc'
      simp only [hk.scope] at hwb
      exact ⟨⟨hwc, hbool, hwb, .refl _⟩, hk.trans ⟨.refl _, .refl _⟩⟩

theorem branches_wellTyped : ∀ (b : Branches .parsed) {first : Ty} {c c' : Checker}
    {b' : Branches .typed}, branches first b c = (.ok b', c') →
      b'.WellTyped c.scope c.inLoop first ∧ Keeps c c'
  | .done, first, c, c', b', h => by
      obtain ⟨_, c₁, hr, h⟩ := bind_fine.mp h
      obtain ⟨ht, rfl⟩ := require_fine hr
      cases h
      have hunit : first = .unit := of_decide_eq_true ht
      exact ⟨hunit, .rfl⟩
  | .otherwise body, first, c, c', b', h => by
      obtain ⟨b, c₁, hb, h⟩ := bind_fine.mp h
      obtain ⟨c₂, hs, rfl⟩ := inBlock_fine hb
      obtain ⟨hwt, hloop⟩ := stmts_wellTyped body hs
      obtain ⟨_, c₃, hr, h⟩ := bind_fine.mp h
      obtain ⟨ht, rfl⟩ := require_fine hr
      cases h
      exact ⟨⟨hwt, (of_decide_eq_true ht).symm⟩, ⟨.refl _, hloop⟩⟩
  | .orIf cond body others, first, c, c', b', h => by
      obtain ⟨cd, c₁, hc, h⟩ := bind_fine.mp h
      obtain ⟨hwc, hkc⟩ := expr_wellTyped cond hc
      obtain ⟨_, c₂, hcond, h⟩ := bind_fine.mp h
      obtain ⟨hbool, hkc'⟩ := condition_fine hcond
      obtain ⟨b, c₃, hb, h⟩ := bind_fine.mp h
      obtain ⟨c₄, hs, rfl⟩ := inBlock_fine hb
      obtain ⟨hwb, hloop⟩ := stmts_wellTyped body hs
      obtain ⟨_, c₅, hr, h⟩ := bind_fine.mp h
      obtain ⟨ht, rfl⟩ := require_fine hr
      obtain ⟨o, c₆, ho, h⟩ := bind_fine.mp h
      obtain ⟨hwo, hko⟩ := branches_wellTyped others ho
      cases h
      have hk := hkc.trans hkc'
      have hkb : Keeps c { c₄ with scope := c₂.scope } := hk.trans ⟨.refl _, hloop⟩
      simp only [hk.scope, hk.inLoop] at hwb
      rw [hkb.scope, hkb.inLoop] at hwo
      exact ⟨⟨hwc, hbool, hwb, (of_decide_eq_true ht).symm, hwo⟩, hkb.trans hko⟩

/-- What the checker makes of a body is well typed, statement by statement. -/
theorem stmts_wellTyped : ∀ (body : List (Stmt .parsed)) {c c' : Checker} {b' : Body .typed},
    stmts body c = (.ok b', c') → Body.WellTyped c.scope c.inLoop b' ∧ c'.inLoop = c.inLoop
  | [], c, c', b', h => by
      cases h
      exact ⟨trivial, .refl _⟩
  | s :: rest, c, c', b', h => by
      obtain ⟨s', c₁, hs, h⟩ := bind_fine.mp h
      obtain ⟨c₂, hst, rfl⟩ := atStmt_fine hs
      obtain ⟨hws, hafter, hloop, hflow⟩ := stmt_wellTyped s hst
      obtain ⟨_, c₃, hf, h⟩ := bind_fine.mp h
      obtain ⟨hlast, rfl⟩ := followed_fine hf
      obtain ⟨rest', c₄, hr, h⟩ := bind_fine.mp h
      obtain ⟨hwr, hloop'⟩ := stmts_wellTyped rest hr
      cases h
      simp only [hafter, hloop] at hwr
      refine ⟨⟨hws, fun hends => ?_, hwr⟩, hloop'.trans hloop⟩
      rw [hlast (hflow ▸ hends)] at hr
      cases hr
      rfl

/-- What the checker makes of a statement is well typed, and its variable is in scope behind it. -/
theorem stmt_wellTyped : ∀ (s : Stmt .parsed) {c c' : Checker} {s' : Stmt .typed},
    stmt s c = (.ok s', c') → s'.WellTyped c.scope c.inLoop ∧ c'.scope = c.scope.after s' ∧
      c'.inLoop = c.inLoop ∧ endsFlow s' = endsFlow s
  | .declare type name init _, c, c', s', h => by
      obtain ⟨c₀, c₁, hget, h⟩ := bind_fine.mp h
      cases hget
      obtain ⟨_, c₂, hr, h⟩ := bind_fine.mp h
      obtain ⟨hnew, rfl⟩ := require_fine hr
      obtain ⟨i, c₃, hi, h⟩ := bind_fine.mp h
      obtain ⟨hwi, hki⟩ := expr_wellTyped init hi
      obtain ⟨_, c₄, hr', h⟩ := bind_fine.mp h
      obtain ⟨htype, rfl⟩ := require_fine hr'
      obtain ⟨c₅, c₆, hget', h⟩ := bind_fine.mp h
      cases hget'
      obtain ⟨c₇, hk, h⟩ := warned_fine h
      cases h
      have hkeep := hki.trans hk
      refine ⟨⟨?_, hwi, of_decide_eq_true htype, .refl _⟩, ?_, hkeep.inLoop, .refl _⟩
      · simpa using hnew
      · simp only [hkeep.scope, Scope.after]
  | .write newline value _ _, c, c', s', h => by
      obtain ⟨v, c₁, hv, h⟩ := bind_fine.mp h
      obtain ⟨hwv, hk⟩ := expr_wellTyped value hv
      cases h
      exact ⟨⟨hwv, .refl _, .refl _⟩, hk.scope, hk.inLoop, .refl _⟩
  | .leave _, c, c', s', h | .again _, c, c', s', h => by
      obtain ⟨c₀, c₁, hget, h⟩ := bind_fine.mp h
      cases hget
      obtain ⟨_, c₂, hr, h⟩ := bind_fine.mp h
      obtain ⟨hloop, rfl⟩ := require_fine hr
      cases h
      exact ⟨⟨hloop, .refl _⟩, .refl _, .refl _, .refl _⟩
  | .expr value _, c, c', s', h => by
      obtain ⟨v, c₁, hv, h⟩ := bind_fine.mp h
      obtain ⟨hwv, hk⟩ := expr_wellTyped value hv
      cases h
      exact ⟨⟨hwv, .refl _⟩, hk.scope, hk.inLoop, .refl _⟩

end

end Check

/-- What a fresh checker accepts obeys the rules. -/
theorem Checker.check_wellTyped {program : Body .parsed} {typed : Body .typed} {c : Checker}
    (h : ({} : Checker).check program = (.ok typed, c)) : Body.WellTyped {} false typed :=
  (Check.stmts_wellTyped program h).1

end BlockLang

import BlockLang.Compilation
import BlockLang.Proofs.Binding
import BlockLang.Proofs.Checking

/-! Renaming. Two trees differ by a renaming if they are the same up to names, and names in the same
place stand for declarations in the same place; no name is captured by another declaration. Such trees
get the same types and the same slots, so they have the same code. -/

namespace BlockLang

/-- Two names that stand for the same declaration, given the names that each declaration in sight has
in the one tree and in the other, the nearest first. -/
inductive Paired : List (String × String) → String → String → Prop where
  | here {vars : List (String × String)} {n n' : String} : Paired ((n, n') :: vars) n n'
  | there {vars : List (String × String)} {a a' n n' : String} :
      a ≠ n → a' ≠ n' → Paired vars n n' → Paired ((a, a') :: vars) n n'

/-- The names of the declarations in sight behind a statement of either tree. -/
def Stmt.paired (vars : List (String × String)) : Stmt .bare → Stmt .bare → List (String × String)
  | .declare _ name _ _, .declare _ name' _ _ => (name, name') :: vars
  | _, _ => vars

mutual

/-- Two expressions that differ by a renaming. -/
def Expr.Renames (vars : List (String × String)) : Expr .bare → Expr .bare → Prop
  | .int value _, .int value' _ => value = value'
  | .string value _, .string value' _ => value = value'
  | .bool value _, .bool value' _ => value = value'
  | .unit _, .unit _ => True
  | .var name _, .var name' _ => Paired vars name name'
  | .assign name value _, .assign name' value' _ =>
    Paired vars name name' ∧ value.Renames vars value'
  | .unary op operand _, .unary op' operand' _ => op = op' ∧ operand.Renames vars operand'
  | .binary op left right _, .binary op' left' right' _ =>
    op = op' ∧ left.Renames vars left' ∧ right.Renames vars right'
  | .block body _, .block body' _ => Body.Renames vars body body'
  | .choice cond body others _, .choice cond' body' others' _ =>
    cond.Renames vars cond' ∧ Body.Renames vars body body' ∧ others.Renames vars others'
  | .loop cond body _, .loop cond' body' _ =>
    cond.Renames vars cond' ∧ Body.Renames vars body body'
  | _, _ => False
termination_by structural e => e

/-- The same of the later branches of a choice. -/
def Branches.Renames (vars : List (String × String)) : Branches .bare → Branches .bare → Prop
  | .done, .done => True
  | .otherwise body, .otherwise body' => Body.Renames vars body body'
  | .orIf cond body others, .orIf cond' body' others' =>
    cond.Renames vars cond' ∧ Body.Renames vars body body' ∧ others.Renames vars others'
  | _, _ => False
termination_by structural b => b

def Body.Renames (vars : List (String × String)) : List (Stmt .bare) → List (Stmt .bare) → Prop
  | [], [] => True
  | s :: rest, s' :: rest' =>
    s.Renames vars s' ∧ Body.Renames (Stmt.paired vars s s') rest rest'
  | _, _ => False
termination_by structural body => body

def Stmt.Renames (vars : List (String × String)) : Stmt .bare → Stmt .bare → Prop
  | .declare type _ init _, .declare type' _ init' _ => type = type' ∧ init.Renames vars init'
  | .write newline value _ _, .write newline' value' _ _ =>
    newline = newline' ∧ value.Renames vars value'
  | .leave _, .leave _ => True
  | .again _, .again _ => True
  | .expr value _, .expr value' _ => value.Renames vars value'
  | _, _ => False
termination_by structural s => s

end

/-! ### Two scopes side by side -/

/-- A declaration in sight: its name in the one tree and in the other, its slot and its type. -/
structure Row where
  left : String
  right : String
  slot : Nat
  type : Ty

/-- The names of the declarations in sight. -/
def Row.names (rows : List Row) : List (String × String) := rows.map fun r => (r.left, r.right)

/-- Names that are paired belong to one row. -/
theorem Paired.row {rows : List Row} {n n' : String} (h : Paired (Row.names rows) n n') :
    ∃ r, rows.find? (·.left == n) = some r ∧ rows.find? (·.right == n') = some r := by
  induction rows with
  | nil => cases h
  | cons r rows ih =>
      cases h with
      | here => exact ⟨r, by simp, by simp⟩
      | there hleft hright h =>
          obtain ⟨found, hl, hr⟩ := ih h
          refine ⟨found, ?_, ?_⟩
          · rw [List.find?_cons, beq_false_of_ne hleft]
            exact hl
          · rw [List.find?_cons, beq_false_of_ne hright]
            exact hr

/-- The scopes and slots of two trees at places that see the same declarations. -/
structure Aligned (rows : List Row) (scope scope' : Scope) (σ σ' : Slots) : Prop where
  vars : scope.vars = rows.map fun r => (r.left, r.type)
  vars' : scope'.vars = rows.map fun r => (r.right, r.type)
  names : σ.names = rows.map fun r => (r.left, r.slot)
  names' : σ'.names = rows.map fun r => (r.right, r.slot)
  next : σ.next = σ'.next

namespace Aligned

variable {rows : List Row} {scope scope' : Scope} {σ σ' τ τ' : Slots}

theorem keeps {n : Nat} (h : Aligned rows scope scope' σ σ') (hk : Resolve.Keeps σ τ n)
    (hk' : Resolve.Keeps σ' τ' n) : Aligned rows scope scope' τ τ' :=
  ⟨h.vars, h.vars', hk.names.trans h.names, hk'.names.trans h.names', by
    rw [hk.next, hk'.next, h.next]⟩

theorem enter (h : Aligned rows scope scope' σ σ') : Aligned rows scope.child scope'.child σ σ' :=
  ⟨h.vars, h.vars', h.names, h.names', h.next⟩

/-- Blocks that resolve to the same tree take the same slots. -/
theorem block {body body' : Body .typed} {b : Body .resolved}
    (h : Aligned rows scope scope' σ σ') (hs : Resolve.stmts body σ = .ok (b, τ))
    (hs' : Resolve.stmts body' σ' = .ok (b, τ')) :
    Aligned rows scope scope' { τ with names := σ.names } { τ' with names := σ'.names } :=
  h.keeps (Resolve.block_keeps hs) (Resolve.block_keeps hs')

theorem declare (h : Aligned rows scope scope' σ σ') (name name' : String) (type : Ty) :
    Aligned (⟨name, name', σ.next, type⟩ :: rows) (scope.declare name type)
      (scope'.declare name' type) ⟨(name, σ.next) :: σ.names, σ.next + 1⟩
      ⟨(name', σ'.next) :: σ'.names, σ'.next + 1⟩ := by
  refine ⟨?_, ?_, ?_, ?_, congrArg (· + 1) h.next⟩
  · rw [Scope.declare, h.vars, List.map_cons]
  · rw [Scope.declare, h.vars', List.map_cons]
  · rw [h.names, List.map_cons]
  · rw [h.names', h.next, List.map_cons]

/-- Names that stand for the same declaration have the same slot and the same type. -/
theorem lookup {n n' : String} {slot slot' : Nat} {t t' : Ty}
    (h : Aligned rows scope scope' σ σ') (hn : Paired (Row.names rows) n n')
    (hslot : σ.names.lookup n = some slot) (hslot' : σ'.names.lookup n' = some slot')
    (ht : scope.type? n = some t) (ht' : scope'.type? n' = some t') : slot = slot' ∧ t = t' := by
  obtain ⟨r, hleft, hright⟩ := hn.row
  rw [h.names, lookup_map_eq_find? rows (·.left), hleft] at hslot
  rw [h.names', lookup_map_eq_find? rows (·.right), hright] at hslot'
  rw [Scope.type?, h.vars, lookup_map_eq_find? rows (·.left), hleft] at ht
  rw [Scope.type?, h.vars', lookup_map_eq_find? rows (·.right), hright] at ht'
  cases hslot
  cases hslot'
  cases ht
  cases ht'
  exact ⟨rfl, rfl⟩

end Aligned

/-! ### Resolved alike -/

namespace Resolve

theorem bodyType_eq_marks (body : Body .typed) :
    Check.bodyType body = (body.map Stmt.mark).getLast?.getD .unit := by
  rw [Check.bodyType, List.getLast?_map]
  cases body.getLast? <;> rfl

/-- Bodies that resolve to the same tree have the same type. -/
theorem bodyType_congr {body body' : Body .typed} {b : Body .resolved} {σ σ' τ τ' : Slots}
    (h : stmts body σ = .ok (b, τ)) (h' : stmts body' σ' = .ok (b, τ')) :
    Check.bodyType body = Check.bodyType body' := by
  rw [bodyType_eq_marks, bodyType_eq_marks, ← stmts_marks h, ← stmts_marks h']

/-- Expressions that resolve to the same tree have the same tag. -/
theorem tag_congr {e e' : Expr .typed} {r : Expr .resolved} {σ σ' τ τ' : Slots}
    (h : expr e σ = .ok (r, τ)) (h' : expr e' σ' = .ok (r, τ')) : e.tag = e'.tag :=
  (expr_keeps e h).1.symm.trans (expr_keeps e' h').1

/-- If two expressions differ by a renaming, they resolve to the same tree. -/
def ExprAlike (e e' : Expr .typed) : Prop :=
  ∀ {rows : List Row} {scope scope' : Scope} {inLoop : Bool} {σ σ' τ τ' : Slots} {r r' : Expr .resolved},
    e.bare.Renames (Row.names rows) e'.bare → Aligned rows scope scope' σ σ' →
    e.WellTyped scope inLoop → e'.WellTyped scope' inLoop →
    expr e σ = .ok (r, τ) → expr e' σ' = .ok (r', τ') → r = r'

def BranchesAlike (b b' : Branches .typed) : Prop :=
  ∀ {rows : List Row} {scope scope' : Scope} {inLoop : Bool} {t t' : Ty} {σ σ' τ τ' : Slots}
    {r r' : Branches .resolved},
    b.bare.Renames (Row.names rows) b'.bare → Aligned rows scope scope' σ σ' →
    b.WellTyped scope inLoop t → b'.WellTyped scope' inLoop t' →
    branches b σ = .ok (r, τ) → branches b' σ' = .ok (r', τ') → r = r'

def BodyAlike (body body' : List (Stmt .typed)) : Prop :=
  ∀ {rows : List Row} {scope scope' : Scope} {inLoop : Bool} {σ σ' τ τ' : Slots} {r r' : Body .resolved},
    Body.Renames (Row.names rows) (Body.bare body) (Body.bare body') →
    Aligned rows scope scope' σ σ' → Body.WellTyped scope inLoop body →
    Body.WellTyped scope' inLoop body' →
    stmts body σ = .ok (r, τ) → stmts body' σ' = .ok (r', τ') → r = r'

/-- If two statements differ by a renaming, they resolve to the same tree, and what stands behind them sees the
same declarations. -/
def StmtAlike (s s' : Stmt .typed) : Prop :=
  ∀ {rows : List Row} {scope scope' : Scope} {inLoop : Bool} {σ σ' τ τ' : Slots} {r r' : Stmt .resolved},
    s.bare.Renames (Row.names rows) s'.bare → Aligned rows scope scope' σ σ' →
    s.WellTyped scope inLoop → s'.WellTyped scope' inLoop →
    stmt s σ = .ok (r, τ) → stmt s' σ' = .ok (r', τ') →
      r = r' ∧ ∃ rows', Stmt.paired (Row.names rows) s.bare s'.bare = Row.names rows' ∧
        Aligned rows' (scope.after s) (scope'.after s') τ τ'

section Nodes

variable {t t' m m' : Ty} {value value' left left' right right' cond cond' : Expr .typed}
  {body body' : List (Stmt .typed)} {others others' : Branches .typed}

theorem int_alike {n n' : Int64} : ExprAlike (.int n t) (.int n' t') := by
  intro rows scope scope' inLoop σ σ' τ τ' r r' hren _ ht ht' h h'
  obtain rfl : n = n' := hren
  obtain rfl : t = .int := ht
  obtain rfl : t' = .int := ht'
  cases h
  cases h'
  rfl

theorem string_alike {text text' : String} : ExprAlike (.string text t) (.string text' t') := by
  intro rows scope scope' inLoop σ σ' τ τ' r r' hren _ ht ht' h h'
  obtain rfl : text = text' := hren
  obtain rfl : t = .string := ht
  obtain rfl : t' = .string := ht'
  cases h
  cases h'
  rfl

theorem bool_alike {b b' : Bool} : ExprAlike (.bool b t) (.bool b' t') := by
  intro rows scope scope' inLoop σ σ' τ τ' r r' hren _ ht ht' h h'
  obtain rfl : b = b' := hren
  obtain rfl : t = .bool := ht
  obtain rfl : t' = .bool := ht'
  cases h
  cases h'
  rfl

theorem unit_alike : ExprAlike (.unit t) (.unit t') := by
  intro rows scope scope' inLoop σ σ' τ τ' r r' _ _ ht ht' h h'
  obtain rfl : t = .unit := ht
  obtain rfl : t' = .unit := ht'
  cases h
  cases h'
  rfl

theorem var_alike {name name' : String} : ExprAlike (.var name t) (.var name' t') := by
  intro rows scope scope' inLoop σ σ' τ τ' r r' hren ha ht ht' h h'
  obtain ⟨slot, hslot, -, rfl⟩ := var_inv h
  obtain ⟨slot', hslot', -, rfl⟩ := var_inv h'
  obtain ⟨rfl, rfl⟩ := ha.lookup hren hslot hslot' ht ht'
  rfl

theorem assign_alike {name name' : String} (hvalue : ExprAlike value value') :
    ExprAlike (.assign name value t) (.assign name' value' t') := by
  intro rows scope scope' inLoop σ σ' τ τ' r r' hren ha ht ht' h h'
  obtain ⟨v, slot, hv, hslot, rfl⟩ := assign_inv h
  obtain ⟨v', slot', hv', hslot', rfl⟩ := assign_inv h'
  obtain rfl := hvalue hren.2 ha ht.1 ht'.1 hv hv'
  have ha₁ := ha.keeps (expr_keeps value hv).2 (expr_keeps value' hv').2
  obtain ⟨rfl, rfl⟩ := ha₁.lookup hren.1 hslot hslot' ht.2.2 ht'.2.2
  rfl

theorem unary_alike {op op' : UnaryOp} (hvalue : ExprAlike value value') :
    ExprAlike (.unary op value t) (.unary op' value' t') := by
  intro rows scope scope' inLoop σ σ' τ τ' r r' hren ha ht ht' h h'
  obtain rfl : op = op' := hren.1
  obtain ⟨v, hv, rfl⟩ := unary_inv h
  obtain ⟨v', hv', rfl⟩ := unary_inv h'
  obtain rfl := hvalue hren.2 ha ht.1 ht'.1 hv hv'
  have htag : value.tag = value'.tag := tag_congr hv hv'
  obtain rfl : t = t' := ht.2.unique (htag ▸ ht'.2)
  rfl

/-- The slots of the right operand are given behind those of the left one, on both sides. -/
theorem binary_alike {op op' : BinaryOp} (hleft : ExprAlike left left') (hright : ExprAlike right right') :
    ExprAlike (.binary op left right t) (.binary op' left' right' t') := by
  intro rows scope scope' inLoop σ σ' τ τ' r r' hren ha ht ht' h h'
  obtain rfl : op = op' := hren.1
  obtain ⟨l, r, σ₁, hl, hr, rfl⟩ := binary_inv h
  obtain ⟨l', r', σ₁', hl', hr', rfl⟩ := binary_inv h'
  obtain rfl := hleft hren.2.1 ha ht.1 ht'.1 hl hl'
  have ha₁ := ha.keeps (expr_keeps left hl).2 (expr_keeps left' hl').2
  obtain rfl := hright hren.2.2 ha₁ ht.2.1 ht'.2.1 hr hr'
  have htagl : left.tag = left'.tag := tag_congr hl hl'
  have htagr : right.tag = right'.tag := tag_congr hr hr'
  obtain rfl : t = t' := ht.2.2.unique (htagl ▸ htagr ▸ ht'.2.2)
  rfl

theorem block_alike (hbody : BodyAlike body body') : ExprAlike (.block body t) (.block body' t') := by
  intro rows scope scope' inLoop σ σ' τ τ' r r' hren ha ht ht' h h'
  obtain ⟨b, σ₁, hs, -, rfl⟩ := block_inv h
  obtain ⟨b', σ₁', hs', -, rfl⟩ := block_inv h'
  obtain rfl := hbody hren ha.enter ht.1 ht'.1 hs hs'
  obtain rfl : t = t' := ht.2.trans ((bodyType_congr hs hs').trans ht'.2.symm)
  rfl

/-- The slots of a choice are given to its condition, its body and the other branches in turn, on both sides. -/
theorem choice_alike (hcond : ExprAlike cond cond') (hbody : BodyAlike body body')
    (hothers : BranchesAlike others others') :
    ExprAlike (.choice cond body others t) (.choice cond' body' others' t') := by
  intro rows scope scope' inLoop σ σ' τ τ' r r' hren ha ht ht' h h'
  obtain ⟨htc, -, htb, htt, hto⟩ := ht
  obtain ⟨htc', -, htb', htt', hto'⟩ := ht'
  obtain ⟨c, b, o, σ₁, σ₂, hc, hs, ho, rfl⟩ := choice_inv h
  obtain ⟨c', b', o', σ₁', σ₂', hc', hs', ho', rfl⟩ := choice_inv h'
  obtain rfl := hcond hren.1 ha htc htc' hc hc'
  have ha₁ := ha.keeps (expr_keeps cond hc).2 (expr_keeps cond' hc').2
  obtain rfl := hbody hren.2.1 ha₁.enter htb htb' hs hs'
  obtain rfl := hothers hren.2.2 (ha₁.block hs hs') hto hto' ho ho'
  obtain rfl : t = t' := htt.trans ((bodyType_congr hs hs').trans htt'.symm)
  rfl

theorem loop_alike (hcond : ExprAlike cond cond') (hbody : BodyAlike body body') :
    ExprAlike (.loop cond body t) (.loop cond' body' t') := by
  intro rows scope scope' inLoop σ σ' τ τ' r r' hren ha ht ht' h h'
  obtain ⟨htc, -, htb, htt⟩ := ht
  obtain ⟨htc', -, htb', htt'⟩ := ht'
  obtain ⟨c, b, σ₁, σ₂, hc, hs, -, rfl⟩ := loop_inv h
  obtain ⟨c', b', σ₁', σ₂', hc', hs', -, rfl⟩ := loop_inv h'
  obtain rfl := hcond hren.1 ha htc htc' hc hc'
  have ha₁ := ha.keeps (expr_keeps cond hc).2 (expr_keeps cond' hc').2
  obtain rfl := hbody hren.2 ha₁.enter htb htb' hs hs'
  obtain rfl : t = t' := htt.trans htt'.symm
  rfl

theorem done_alike : BranchesAlike .done .done := by
  intro rows scope scope' inLoop t t' σ σ' τ τ' r r' _ _ _ _ h h'
  cases h
  cases h'
  rfl

theorem otherwise_alike (hbody : BodyAlike body body') :
    BranchesAlike (.otherwise body) (.otherwise body') := by
  intro rows scope scope' inLoop t t' σ σ' τ τ' r r' hren ha ht ht' h h'
  obtain ⟨b, σ₁, hs, -, rfl⟩ := otherwise_inv h
  obtain ⟨b', σ₁', hs', -, rfl⟩ := otherwise_inv h'
  obtain rfl := hbody hren ha.enter ht.1 ht'.1 hs hs'
  rfl

theorem orIf_alike (hcond : ExprAlike cond cond') (hbody : BodyAlike body body')
    (hothers : BranchesAlike others others') :
    BranchesAlike (.orIf cond body others) (.orIf cond' body' others') := by
  intro rows scope scope' inLoop t t' σ σ' τ τ' r r' hren ha ht ht' h h'
  obtain ⟨htc, -, htb, -, hto⟩ := ht
  obtain ⟨htc', -, htb', -, hto'⟩ := ht'
  obtain ⟨c, b, o, σ₁, σ₂, hc, hs, ho, rfl⟩ := orIf_inv h
  obtain ⟨c', b', o', σ₁', σ₂', hc', hs', ho', rfl⟩ := orIf_inv h'
  obtain rfl := hcond hren.1 ha htc htc' hc hc'
  have ha₁ := ha.keeps (expr_keeps cond hc).2 (expr_keeps cond' hc').2
  obtain rfl := hbody hren.2.1 ha₁.enter htb htb' hs hs'
  obtain rfl := hothers hren.2.2 (ha₁.block hs hs') hto hto' ho ho'
  rfl

theorem nil_alike : BodyAlike [] [] := by
  intro rows scope scope' inLoop σ σ' τ τ' r r' _ _ _ _ h h'
  cases h
  cases h'
  rfl

theorem cons_alike {s s' : Stmt .typed} (hs : StmtAlike s s') (hrest : BodyAlike body body') :
    BodyAlike (s :: body) (s' :: body') := by
  intro rows scope scope' inLoop σ σ' τ τ' r r' hren ha ht ht' h h'
  obtain ⟨hts, -, htr⟩ := ht
  obtain ⟨hts', -, htr'⟩ := ht'
  obtain ⟨r₁, r₂, σ₁, hr₁, hr₂, rfl⟩ := stmts_cons_inv h
  obtain ⟨r₁', r₂', σ₁', hr₁', hr₂', rfl⟩ := stmts_cons_inv h'
  obtain ⟨rfl, rows', hrows, ha₁⟩ := hs hren.1 ha hts hts' hr₁ hr₁'
  obtain rfl := hrest (hrows ▸ hren.2) ha₁ htr htr' hr₂ hr₂'
  rfl

/-- The initial values take the same slots, so both variables get the same one. -/
theorem declare_alike {type type' : Ty} {name name' : String} (hvalue : ExprAlike value value') :
    StmtAlike (.declare type name value m) (.declare type' name' value' m') := by
  intro rows scope scope' inLoop σ σ' τ τ' r r' hren ha ht ht' h h'
  obtain rfl : type = type' := hren.1
  obtain ⟨-, hti, -, rfl⟩ := ht
  obtain ⟨-, hti', -, rfl⟩ := ht'
  obtain ⟨i, σ₁, hi, rfl, rfl⟩ := declare_inv h
  obtain ⟨i', σ₁', hi', rfl, rfl⟩ := declare_inv h'
  obtain rfl := hvalue hren.2 ha hti hti' hi hi'
  have ha₁ := ha.keeps (expr_keeps value hi).2 (expr_keeps value' hi').2
  exact ⟨by rw [ha₁.next], ⟨name, name', _, type⟩ :: rows, rfl, ha₁.declare name name' type⟩

theorem write_alike {newline newline' : Bool} (hvalue : ExprAlike value value') :
    StmtAlike (.write newline value t m) (.write newline' value' t' m') := by
  intro rows scope scope' inLoop σ σ' τ τ' r r' hren ha ht ht' h h'
  obtain rfl : newline = newline' := hren.1
  obtain ⟨htv, rfl, rfl⟩ := ht
  obtain ⟨htv', rfl, rfl⟩ := ht'
  obtain ⟨v, hv, rfl⟩ := write_inv h
  obtain ⟨v', hv', rfl⟩ := write_inv h'
  obtain rfl := hvalue hren.2 ha htv htv' hv hv'
  have htag : value.tag = value'.tag := tag_congr hv hv'
  exact ⟨by rw [htag], rows, rfl, ha.keeps (expr_keeps value hv).2 (expr_keeps value' hv').2⟩

theorem leave_alike : StmtAlike (.leave m) (.leave m') := by
  intro rows scope scope' inLoop σ σ' τ τ' r r' _ ha ht ht' h h'
  obtain ⟨-, rfl⟩ := ht
  obtain ⟨-, rfl⟩ := ht'
  cases h
  cases h'
  exact ⟨rfl, rows, rfl, ha⟩

theorem again_alike : StmtAlike (.again m) (.again m') := by
  intro rows scope scope' inLoop σ σ' τ τ' r r' _ ha ht ht' h h'
  obtain ⟨-, rfl⟩ := ht
  obtain ⟨-, rfl⟩ := ht'
  cases h
  cases h'
  exact ⟨rfl, rows, rfl, ha⟩

theorem expr_stmt_alike (hvalue : ExprAlike value value') : StmtAlike (.expr value m) (.expr value' m') := by
  intro rows scope scope' inLoop σ σ' τ τ' r r' hren ha ht ht' h h'
  obtain ⟨htv, rfl⟩ := ht
  obtain ⟨htv', rfl⟩ := ht'
  obtain ⟨v, hv, rfl⟩ := expr_stmt_inv h
  obtain ⟨v', hv', rfl⟩ := expr_stmt_inv h'
  obtain rfl := hvalue hren ha htv htv' hv hv'
  have htag : value.tag = value'.tag := tag_congr hv hv'
  exact ⟨by rw [htag], rows, rfl, ha.keeps (expr_keeps value hv).2 (expr_keeps value' hv').2⟩

end Nodes

mutual

/-- The induction is on the first expression; the relation leaves one shape for the second. -/
theorem expr_renamed : ∀ e e' : Expr .typed, ExprAlike e e'
  | .int _ _, e' => by
      cases e' with
      | int => exact int_alike
      | _ => exact fun hren => hren.elim
  | .string _ _, e' => by
      cases e' with
      | string => exact string_alike
      | _ => exact fun hren => hren.elim
  | .bool _ _, e' => by
      cases e' with
      | bool => exact bool_alike
      | _ => exact fun hren => hren.elim
  | .unit _, e' => by
      cases e' with
      | unit => exact unit_alike
      | _ => exact fun hren => hren.elim
  | .var _ _, e' => by
      cases e' with
      | var => exact var_alike
      | _ => exact fun hren => hren.elim
  | .assign _ value _, e' => by
      cases e' with
      | assign _ value' _ => exact assign_alike (expr_renamed value value')
      | _ => exact fun hren => hren.elim
  | .unary _ operand _, e' => by
      cases e' with
      | unary _ operand' _ => exact unary_alike (expr_renamed operand operand')
      | _ => exact fun hren => hren.elim
  | .binary _ left right _, e' => by
      cases e' with
      | binary _ left' right' _ => exact binary_alike (expr_renamed left left') (expr_renamed right right')
      | _ => exact fun hren => hren.elim
  | .block body _, e' => by
      cases e' with
      | block body' _ => exact block_alike (stmts_renamed body body')
      | _ => exact fun hren => hren.elim
  | .choice cond body others _, e' => by
      cases e' with
      | choice cond' body' others' _ =>
          exact choice_alike (expr_renamed cond cond') (stmts_renamed body body')
            (branches_renamed others others')
      | _ => exact fun hren => hren.elim
  | .loop cond body _, e' => by
      cases e' with
      | loop cond' body' _ => exact loop_alike (expr_renamed cond cond') (stmts_renamed body body')
      | _ => exact fun hren => hren.elim
termination_by structural e => e

/-- Later branches that differ by a renaming resolve to the same tree. -/
theorem branches_renamed : ∀ b b' : Branches .typed, BranchesAlike b b'
  | .done, b' => by
      cases b' with
      | done => exact done_alike
      | _ => exact fun hren => hren.elim
  | .otherwise body, b' => by
      cases b' with
      | otherwise body' => exact otherwise_alike (stmts_renamed body body')
      | _ => exact fun hren => hren.elim
  | .orIf cond body others, b' => by
      cases b' with
      | orIf cond' body' others' =>
          exact orIf_alike (expr_renamed cond cond') (stmts_renamed body body')
            (branches_renamed others others')
      | _ => exact fun hren => hren.elim
termination_by structural b => b

theorem stmts_renamed : ∀ body body' : List (Stmt .typed), BodyAlike body body'
  | [], body' => by
      cases body' with
      | nil => exact nil_alike
      | cons s' rest' => exact fun hren => hren.elim
  | s :: rest, body' => by
      cases body' with
      | nil => exact fun hren => hren.elim
      | cons s' rest' => exact cons_alike (stmt_renamed s s') (stmts_renamed rest rest')
termination_by structural body => body

/-- Statements that differ by a renaming resolve to the same tree, by induction on both of them. -/
theorem stmt_renamed : ∀ s s' : Stmt .typed, StmtAlike s s'
  | .declare _ _ init _, s' => by
      cases s' with
      | declare _ _ init' _ => exact declare_alike (expr_renamed init init')
      | _ => exact fun hren => hren.elim
  | .write _ value _ _, s' => by
      cases s' with
      | write _ value' _ _ => exact write_alike (expr_renamed value value')
      | _ => exact fun hren => hren.elim
  | .leave _, s' => by
      cases s' with
      | leave => exact leave_alike
      | _ => exact fun hren => hren.elim
  | .again _, s' => by
      cases s' with
      | again => exact again_alike
      | _ => exact fun hren => hren.elim
  | .expr value _, s' => by
      cases s' with
      | expr value' _ => exact expr_stmt_alike (expr_renamed value value')
      | _ => exact fun hren => hren.elim
termination_by structural s => s

end

end Resolve

theorem resolve_renamed {program program' : Body .typed} {body : Body .resolved} {slots : Nat}
    (hren : Body.Renames [] (Body.bare program) (Body.bare program'))
    (htyped : Body.WellTyped {} false program) (htyped' : Body.WellTyped {} false program')
    (h : resolve program = .ok (body, slots)) : resolve program' = .ok (body, slots) := by
  obtain ⟨body', slots', h', -⟩ := htyped'.resolves
  obtain ⟨σ, hs, -⟩ := resolve_ok.mp h
  obtain ⟨σ', hs', -⟩ := resolve_ok.mp h'
  have haligned : Aligned [] {} {} {} {} := ⟨rfl, rfl, rfl, rfl, rfl⟩
  have hnames : Body.Renames (Row.names []) (Body.bare program) (Body.bare program') := hren
  obtain rfl := Resolve.stmts_renamed program program' hnames haligned htyped htyped' hs hs'
  rw [h', resolve_slots h', resolve_slots h]

/-- What is compiled from a typed tree. -/
theorem Compilation.compiled_of_typed {settings : Settings} {name : String} {text : List Char}
    {program : Body .typed} {body : Body .resolved} {slots : Nat}
    (htyped : (typed settings name text).result = .ok program)
    (hres : resolve program = .ok (body, slots)) :
    (compiled settings name text).result =
      ((generate body slots).map ({ · with sourceHash := Digest.ofSource text })).mapError .emit := by
  have hresolved : (resolved settings name text).result = .ok (body, slots) := by
    simp only [resolved, htyped, hres]
    rfl
  simp only [compiled, hresolved]
  cases generate body slots <;> rfl

/-- The tree with slots of a program that the checker accepts is the typed tree with each name replaced
by the slot of the declaration that it stands for, which has the type of the use. The declarations have
the slots from zero on in the order in which their initial values end, and no initial value names the
slot of its own variable. So programs that differ by a renaming have the same tree with slots, and
sources of theirs the same code up to the hash. -/
theorem resolve_follows_scopes {source : Body .parsed} {program : Body .typed} {checker : Checker}
    (h : ({} : Checker).check source = (.ok program, checker)) :
    ∃ body slots, resolve program = .ok (body, slots) ∧
      (∃ both : Body .slotted, Body.rename Prod.fst both = program ∧
        Body.rename Prod.snd both = body ∧ ∀ u ∈ Body.uses [] [] both, u.Bound) ∧
      (Body.declared body).map (·.name) = List.range slots ∧
      (∀ d ∈ Body.declared body, d.init.Below d.name) ∧
      ∀ source' program' checker', ({} : Checker).check source' = (.ok program', checker') →
        Body.Renames [] (Body.bare source) (Body.bare source') →
        resolve program' = .ok (body, slots) ∧
        ∀ settings name text settings' name' text',
          (Compilation.typed settings name text).result = .ok program →
          (Compilation.typed settings' name' text').result = .ok program' →
          (Compilation.compiled settings' name' text').result =
            (Compilation.compiled settings name text).result.map
              ({ · with sourceHash := Digest.ofSource text' }) := by
  have htyped := Checker.check_wellTyped h
  obtain ⟨body, slots, hres, -⟩ := htyped.resolves
  have hnumbered := resolve_numbered hres
  refine ⟨body, slots, hres, resolve_binds htyped hres, ?_, hnumbered.inits, ?_⟩
  · rw [hnumbered.slots, List.range_eq_range']
  · intro source' program' checker' h' hren
    rw [← Check.stmts_bare source _ _ _ h, ← Check.stmts_bare source' _ _ _ h'] at hren
    have hres' := resolve_renamed hren htyped (Checker.check_wellTyped h') hres
    refine ⟨hres', fun settings name text settings' name' text' ht ht' => ?_⟩
    rw [Compilation.compiled_of_typed ht hres, Compilation.compiled_of_typed ht' hres']
    cases generate body slots <;> rfl

/-- A block in an initial value declares a variable again, whose own initial value still means the
outer one. Once that is renamed, its old name is free for the variable that the block initialises. -/
theorem resolve_follows_scopes_shadowed :
    let source (outer inner last : String) : Body .parsed := [
      .declare .int outer (.int 1 ()) {},
      .declare .int last (.block [
        .declare .int inner (.binary .add (.var outer ()) (.int 1 ()) ()) {},
        .expr (.assign inner (.var inner ()) ()) {}] ()) {},
      .write true (.var outer ()) () {}]
    let program (outer inner last : String) : Body .typed := [
      .declare .int outer (.int 1 .int) .unit,
      .declare .int last (.block [
        .declare .int inner (.binary .add (.var outer .int) (.int 1 .int) .int) .unit,
        .expr (.assign inner (.var inner .int) .int) .int] .int) .unit,
      .write true (.var outer .int) .int .unit]
    let body : Body .resolved := [
      .declare .int 0 (.int 1 .int) .unit,
      .declare .int 2 (.block [
        .declare .int 1 (.binary .add (.var 0 .int) (.int 1 .int) .int) .unit,
        .expr (.assign 1 (.var 1 .int) .int) .int] .int) .unit,
      .write true (.var 0 .int) .int .unit]
    (∃ checker, ({} : Checker).check (source "x" "x" "y") = (.ok (program "x" "x" "y"), checker)) ∧
      (∃ checker, ({} : Checker).check (source "a" "x" "x") = (.ok (program "a" "x" "x"), checker)) ∧
      Body.Renames [] (Body.bare (source "x" "x" "y")) (Body.bare (source "a" "x" "x")) ∧
      resolve (program "x" "x" "y") = .ok (body, 3) ∧
      resolve (program "a" "x" "x") = .ok (body, 3) := by
  intro source program body
  obtain ⟨checker, hcheck⟩ : ∃ checker,
      ({} : Checker).check (source "x" "x" "y") = (.ok (program "x" "x" "y"), checker) := ⟨_, rfl⟩
  obtain ⟨checker', hcheck'⟩ : ∃ checker,
      ({} : Checker).check (source "a" "x" "x") = (.ok (program "a" "x" "x"), checker) := ⟨_, rfl⟩
  have hren : Body.Renames [] (Body.bare (source "x" "x" "y")) (Body.bare (source "a" "x" "x")) :=
    ⟨⟨rfl, rfl⟩, ⟨rfl, ⟨rfl, ⟨rfl, .here, rfl⟩⟩, ⟨.here, .here⟩, trivial⟩,
      ⟨rfl, .there (by decide) (by decide) .here⟩, trivial⟩
  have hresolve : resolve (program "x" "x" "y") = .ok (body, 3) := rfl
  obtain ⟨body', slots, hres, -, -, -, hrenamed⟩ := resolve_follows_scopes hcheck
  have hsame := (hrenamed _ _ _ hcheck' hren).1
  rw [hresolve] at hres
  cases hres
  exact ⟨⟨checker, hcheck⟩, ⟨checker', hcheck'⟩, hren, hresolve, hsame⟩

end BlockLang

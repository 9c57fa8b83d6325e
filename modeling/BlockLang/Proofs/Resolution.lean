import BlockLang.Proofs.Scoping

/-! What resolving does to each kind of node. The tree with slots has the same shape as the typed tree,
its children are resolved one after the other, and a block gives back the names that it was entered
with; the lemmas here say so once for every kind of node. -/

namespace BlockLang.Resolve

open Sequence

variable {σ σ' : Slots}

section Expressions

variable {e' : Expr .resolved} {t : Ty}

theorem var_inv {name : String} (h : expr (.var name t) σ = .ok (e', σ')) :
    ∃ slot, σ.names.lookup name = some slot ∧ σ' = σ ∧ e' = .var slot t := by
  obtain ⟨slot, σ₁, hlook, h⟩ := bind_ok.mp h
  obtain ⟨hslot, rfl⟩ := lookup_ok hlook
  cases h
  exact ⟨slot, hslot, rfl, rfl⟩

theorem assign_inv {name : String} {value : Expr .typed}
    (h : expr (.assign name value t) σ = .ok (e', σ')) :
    ∃ v slot, expr value σ = .ok (v, σ') ∧ σ'.names.lookup name = some slot ∧
      e' = .assign slot v t := by
  obtain ⟨v, σ₁, hv, h⟩ := bind_ok.mp h
  obtain ⟨slot, σ₂, hlook, h⟩ := bind_ok.mp h
  obtain ⟨hslot, rfl⟩ := lookup_ok hlook
  cases h
  exact ⟨v, slot, hv, hslot, rfl⟩

theorem unary_inv {op : UnaryOp} {operand : Expr .typed}
    (h : expr (.unary op operand t) σ = .ok (e', σ')) :
    ∃ v, expr operand σ = .ok (v, σ') ∧ e' = .unary op v t := by
  obtain ⟨v, σ₁, hv, h⟩ := bind_ok.mp h
  cases h
  exact ⟨v, hv, rfl⟩

theorem binary_inv {op : BinaryOp} {left right : Expr .typed}
    (h : expr (.binary op left right t) σ = .ok (e', σ')) :
    ∃ l r σ₁, expr left σ = .ok (l, σ₁) ∧ expr right σ₁ = .ok (r, σ') ∧ e' = .binary op l r t := by
  obtain ⟨l, σ₁, hl, h⟩ := bind_ok.mp h
  obtain ⟨r, σ₂, hr, h⟩ := bind_ok.mp h
  cases h
  exact ⟨l, r, σ₁, hl, hr, rfl⟩

theorem block_inv {body : Body .typed} (h : expr (.block body t) σ = .ok (e', σ')) :
    ∃ b σ₁, stmts body σ = .ok (b, σ₁) ∧ σ' = { σ₁ with names := σ.names } ∧ e' = .block b t := by
  obtain ⟨b, σ₁, hb, h⟩ := bind_ok.mp h
  obtain ⟨σ₂, hs, rfl⟩ := inBlock_ok hb
  cases h
  exact ⟨b, σ₂, hs, rfl, rfl⟩

theorem choice_inv {cond : Expr .typed} {body : Body .typed} {others : Branches .typed}
    (h : expr (.choice cond body others t) σ = .ok (e', σ')) :
    ∃ c b o σ₁ σ₂, expr cond σ = .ok (c, σ₁) ∧ stmts body σ₁ = .ok (b, σ₂) ∧
      branches others { σ₂ with names := σ₁.names } = .ok (o, σ') ∧ e' = .choice c b o t := by
  obtain ⟨c, σ₁, hc, h⟩ := bind_ok.mp h
  obtain ⟨b, σ₂, hb, h⟩ := bind_ok.mp h
  obtain ⟨σ₃, hs, rfl⟩ := inBlock_ok hb
  obtain ⟨o, σ₄, ho, h⟩ := bind_ok.mp h
  cases h
  exact ⟨c, b, o, σ₁, σ₃, hc, hs, ho, rfl⟩

theorem loop_inv {cond : Expr .typed} {body : Body .typed}
    (h : expr (.loop cond body t) σ = .ok (e', σ')) :
    ∃ c b σ₁ σ₂, expr cond σ = .ok (c, σ₁) ∧ stmts body σ₁ = .ok (b, σ₂) ∧
      σ' = { σ₂ with names := σ₁.names } ∧ e' = .loop c b t := by
  obtain ⟨c, σ₁, hc, h⟩ := bind_ok.mp h
  obtain ⟨b, σ₂, hb, h⟩ := bind_ok.mp h
  obtain ⟨σ₃, hs, rfl⟩ := inBlock_ok hb
  cases h
  exact ⟨c, b, σ₁, σ₃, hc, hs, rfl, rfl⟩

end Expressions

section Others

variable {b' : Branches .resolved}

theorem otherwise_inv {body : Body .typed} (h : branches (.otherwise body) σ = .ok (b', σ')) :
    ∃ b σ₁, stmts body σ = .ok (b, σ₁) ∧ σ' = { σ₁ with names := σ.names } ∧ b' = .otherwise b := by
  obtain ⟨b, σ₁, hb, h⟩ := bind_ok.mp h
  obtain ⟨σ₂, hs, rfl⟩ := inBlock_ok hb
  cases h
  exact ⟨b, σ₂, hs, rfl, rfl⟩

theorem orIf_inv {cond : Expr .typed} {body : Body .typed} {others : Branches .typed}
    (h : branches (.orIf cond body others) σ = .ok (b', σ')) :
    ∃ c b o σ₁ σ₂, expr cond σ = .ok (c, σ₁) ∧ stmts body σ₁ = .ok (b, σ₂) ∧
      branches others { σ₂ with names := σ₁.names } = .ok (o, σ') ∧ b' = .orIf c b o := by
  obtain ⟨c, σ₁, hc, h⟩ := bind_ok.mp h
  obtain ⟨b, σ₂, hb, h⟩ := bind_ok.mp h
  obtain ⟨σ₃, hs, rfl⟩ := inBlock_ok hb
  obtain ⟨o, σ₄, ho, h⟩ := bind_ok.mp h
  cases h
  exact ⟨c, b, o, σ₁, σ₃, hc, hs, ho, rfl⟩

end Others

section Statements

variable {s' : Stmt .resolved} {m : Ty}

theorem stmts_cons_inv {s : Stmt .typed} {rest : Body .typed} {b' : Body .resolved}
    (h : stmts (s :: rest) σ = .ok (b', σ')) :
    ∃ first later σ₁, stmt s σ = .ok (first, σ₁) ∧ stmts rest σ₁ = .ok (later, σ') ∧
      b' = first :: later := by
  obtain ⟨first, σ₁, hs, h⟩ := bind_ok.mp h
  obtain ⟨later, σ₂, hr, h⟩ := bind_ok.mp h
  cases h
  exact ⟨first, later, σ₁, hs, hr, rfl⟩

theorem declare_inv {type : Ty} {name : String} {init : Expr .typed}
    (h : stmt (.declare type name init m) σ = .ok (s', σ')) :
    ∃ i σ₁, expr init σ = .ok (i, σ₁) ∧ σ' = ⟨(name, σ₁.next) :: σ₁.names, σ₁.next + 1⟩ ∧
      s' = .declare type σ₁.next i m := by
  obtain ⟨i, σ₁, hi, h⟩ := bind_ok.mp h
  obtain ⟨slot, σ₂, hd, h⟩ := bind_ok.mp h
  cases hd
  cases h
  exact ⟨i, σ₁, hi, rfl, rfl⟩

theorem write_inv {newline : Bool} {value : Expr .typed} {shown : Ty}
    (h : stmt (.write newline value shown m) σ = .ok (s', σ')) :
    ∃ v, expr value σ = .ok (v, σ') ∧ s' = .write newline v shown m := by
  obtain ⟨v, σ₁, hv, h⟩ := bind_ok.mp h
  cases h
  exact ⟨v, hv, rfl⟩

theorem expr_stmt_inv {value : Expr .typed} (h : stmt (.expr value m) σ = .ok (s', σ')) :
    ∃ v, expr value σ = .ok (v, σ') ∧ s' = .expr v m := by
  obtain ⟨v, σ₁, hv, h⟩ := bind_ok.mp h
  cases h
  exact ⟨v, hv, rfl⟩

end Statements

/-- A block hands out slots, and leaves the visible variables as they were. -/
theorem block_keeps {body : Body .typed} {b : Body .resolved} (h : stmts body σ = .ok (b, σ')) :
    Keeps σ { σ' with names := σ.names } (Body.declarations b) :=
  ⟨rfl, (stmts_grows body h).next⟩

/-- Every statement keeps its mark. -/
theorem stmts_marks {body : Body .typed} {b : Body .resolved} (h : stmts body σ = .ok (b, σ')) :
    b.map Stmt.mark = body.map Stmt.mark := by
  induction body generalizing b σ with
  | nil =>
      cases h
      rfl
  | cons s rest ih =>
      obtain ⟨first, later, σ₁, hs, hr, rfl⟩ := stmts_cons_inv h
      have hmark : first.mark = s.mark := by
        cases s with
        | declare type name init m =>
            obtain ⟨i, σ₂, -, -, rfl⟩ := declare_inv hs
            rfl
        | write newline value shown m =>
            obtain ⟨v, -, rfl⟩ := write_inv hs
            rfl
        | leave m | again m =>
            cases hs
            rfl
        | expr value m =>
            obtain ⟨v, -, rfl⟩ := expr_stmt_inv hs
            rfl
      rw [List.map_cons, List.map_cons, hmark, ih hr]

end BlockLang.Resolve

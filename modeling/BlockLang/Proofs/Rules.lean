import BlockLang.Proofs.Typing

/-! The typing rules of the language, as a relation between bare trees and types. A bare tree carries
names and nothing else. The rules speak of lexical blocks: a name means its declaration in the
innermost block that has one, a block declares no name twice, and what it declares ends with it. No
tree has two types. -/

namespace BlockLang

/-- Names as written, and no tags and marks. -/
abbrev Phase.bare : Phase := ⟨String, Unit, Unit⟩

section Bare

variable {Tag Mark : Type}

mutual

def Expr.bare : Expr ⟨String, Tag, Mark⟩ → Expr .bare
  | .int value _ => .int value ()
  | .string value _ => .string value ()
  | .bool value _ => .bool value ()
  | .unit _ => .unit ()
  | .var name _ => .var name ()
  | .assign name value _ => .assign name value.bare ()
  | .unary op operand _ => .unary op operand.bare ()
  | .binary op left right _ => .binary op left.bare right.bare ()
  | .block body _ => .block (Body.bare body) ()
  | .choice cond body others _ => .choice cond.bare (Body.bare body) others.bare ()
  | .loop cond body _ => .loop cond.bare (Body.bare body) ()

/-- The later branches of a choice without their tags and marks. -/
def Branches.bare : Branches ⟨String, Tag, Mark⟩ → Branches .bare
  | .done => .done
  | .otherwise body => .otherwise (Body.bare body)
  | .orIf cond body others => .orIf cond.bare (Body.bare body) others.bare

def Body.bare : List (Stmt ⟨String, Tag, Mark⟩) → List (Stmt .bare)
  | [] => []
  | s :: rest => s.bare :: Body.bare rest

def Stmt.bare : Stmt ⟨String, Tag, Mark⟩ → Stmt .bare
  | .declare type name init _ => .declare type name init.bare ()
  | .write newline value _ _ => .write newline value.bare () ()
  | .leave _ => .leave ()
  | .again _ => .again ()
  | .expr value _ => .expr value.bare ()

end

end Bare

/-- The declarations that a place sees: those of the block around it up to there, and those of the
blocks farther out, inside out; in each block the latest comes first. -/
structure Env where
  inner : List (String × Ty) := []
  outer : List (List (String × Ty)) := []

namespace Env

/-- The type of a name: that of its declaration in the innermost block that has one. -/
def type? (Γ : Env) (name : String) : Option Ty := (Γ.inner :: Γ.outer).findSome? (·.lookup name)

def enter (Γ : Env) : Env := ⟨[], Γ.inner :: Γ.outer⟩

/-- The place behind a statement. -/
def after (Γ : Env) : Stmt .bare → Env
  | .declare type name _ _ => { Γ with inner := (name, type) :: Γ.inner }
  | _ => Γ

end Env

/-- The kinds of trees that have a type. -/
inductive Kind where
  | expr
  | branches
  | body
  | stmt

abbrev Kind.Tree : Kind → Type
  | expr => Expr .bare
  | branches => Branches .bare
  | body => Body .bare
  | stmt => Stmt .bare

/-- A tree has a type at a place, which may be inside the body of a loop. -/
inductive HasType : (k : Kind) → Env → Bool → k.Tree → Ty → Prop where
  | int {Γ l value} : HasType .expr Γ l (.int value ()) .int
  | string {Γ l value} : HasType .expr Γ l (.string value ()) .string
  | bool {Γ l value} : HasType .expr Γ l (.bool value ()) .bool
  | unit {Γ l} : HasType .expr Γ l (.unit ()) .unit
  | var {Γ l name τ} : Γ.type? name = some τ → HasType .expr Γ l (.var name ()) τ
  | assign {Γ l name value τ} :
      Γ.type? name = some τ → HasType .expr Γ l value τ →
      HasType .expr Γ l (.assign name value ()) τ
  | unary {Γ l op operand σ τ} :
      HasType .expr Γ l operand σ → op.Typed σ τ → HasType .expr Γ l (.unary op operand ()) τ
  | binary {Γ l op left right σ σ' τ} :
      HasType .expr Γ l left σ → HasType .expr Γ l right σ' → op.Typed σ σ' τ →
      HasType .expr Γ l (.binary op left right ()) τ
  | block {Γ l body τ} : HasType .body Γ.enter l body τ → HasType .expr Γ l (.block body ()) τ
  | choice {Γ l cond body others τ} :
      HasType .expr Γ l cond .bool → HasType .body Γ.enter l body τ → HasType .branches Γ l others τ →
      HasType .expr Γ l (.choice cond body others ()) τ
  /-- The condition of a loop is no part of its body. -/
  | loop {Γ l cond body σ} :
      HasType .expr Γ l cond .bool → HasType .body Γ.enter true body σ →
      HasType .expr Γ l (.loop cond body ()) .unit
  | done {Γ l} : HasType .branches Γ l .done .unit
  | otherwise {Γ l body τ} :
      HasType .body Γ.enter l body τ → HasType .branches Γ l (.otherwise body) τ
  | orIf {Γ l cond body others τ} :
      HasType .expr Γ l cond .bool → HasType .body Γ.enter l body τ → HasType .branches Γ l others τ →
      HasType .branches Γ l (.orIf cond body others) τ
  | empty {Γ l} : HasType .body Γ l [] .unit
  | last {Γ l s τ} : HasType .stmt Γ l s τ → HasType .body Γ l [s] τ
  /-- Nothing follows a statement that hands control to a loop. -/
  | next {Γ l s s' rest σ τ} :
      HasType .stmt Γ l s σ → Check.endsFlow s = false → HasType .body (Γ.after s) l (s' :: rest) τ →
      HasType .body Γ l (s :: s' :: rest) τ
  /-- The initial value does not see the variable. -/
  | declare {Γ l type name init} :
      (∀ σ, (name, σ) ∉ Γ.inner) → HasType .expr Γ l init type →
      HasType .stmt Γ l (.declare type name init ()) .unit
  | write {Γ l newline value σ} :
      HasType .expr Γ l value σ → HasType .stmt Γ l (.write newline value () ()) .unit
  | leave {Γ} : HasType .stmt Γ true (.leave ()) .unit
  | again {Γ} : HasType .stmt Γ true (.again ()) .unit
  | expr {Γ l value τ} : HasType .expr Γ l value τ → HasType .stmt Γ l (.expr value ()) τ

theorem UnaryOp.Typed.unique {op : UnaryOp} {operand τ τ' : Ty} (h : op.Typed operand τ)
    (h' : op.Typed operand τ') : τ = τ' := by
  have hok := Check.unaryType_ok.mpr h
  rw [Check.unaryType_ok.mpr h'] at hok
  exact (Except.ok.inj hok).symm

theorem BinaryOp.Typed.unique {op : BinaryOp} {left right τ τ' : Ty} (h : op.Typed left right τ)
    (h' : op.Typed left right τ') : τ = τ' := by
  have hok := Check.binaryType_ok.mpr h
  rw [Check.binaryType_ok.mpr h'] at hok
  exact (Except.ok.inj hok).symm

/-- A tree has at most one type. -/
theorem HasType.unique {k : Kind} {Γ : Env} {l : Bool} {tree : k.Tree} {τ τ' : Ty}
    (h : HasType k Γ l tree τ) (h' : HasType k Γ l tree τ') : τ = τ' := by
  induction h generalizing τ' with
  | int | string | bool | unit | done | empty | leave | again =>
      cases h'
      rfl
  | loop | declare | write =>
      cases h'
      rfl
  | var hname =>
      cases h' with
      | var hname' => exact Option.some.inj (hname.symm.trans hname')
  | assign hname _ _ =>
      cases h' with
      | assign hname' _ => exact Option.some.inj (hname.symm.trans hname')
  | unary _ hop ih =>
      cases h' with
      | unary hoperand hop' =>
          obtain rfl := ih hoperand
          exact hop.unique hop'
  | binary _ _ hop ihl ihr =>
      cases h' with
      | binary hleft hright hop' =>
          obtain rfl := ihl hleft
          obtain rfl := ihr hright
          exact hop.unique hop'
  | block _ ih =>
      cases h' with
      | block h => exact ih h
  | choice _ _ _ _ ih _ =>
      cases h' with
      | choice _ h _ => exact ih h
  | otherwise _ ih =>
      cases h' with
      | otherwise h => exact ih h
  | orIf _ _ _ _ ih _ =>
      cases h' with
      | orIf _ h _ => exact ih h
  | last _ ih =>
      cases h' with
      | last h => exact ih h
  | next _ _ _ _ ih =>
      cases h' with
      | next _ _ h => exact ih h
  | expr _ ih =>
      cases h' with
      | expr h => exact ih h

end BlockLang

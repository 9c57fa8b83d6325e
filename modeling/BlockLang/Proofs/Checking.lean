import BlockLang.Proofs.Rules

/-! The checker and the typing rules. A checker accepts the programs that have a type by the rules and
no others. What it yields is the program it was given, with every expression and every statement
annotated with the one type that the rules give it at its place. -/

namespace BlockLang

open Sequence

/-- The scope of a checker at a place. -/
def Scope.ofEnv (Γ : Env) : Scope := ⟨Γ.inner ++ Γ.outer.flatten, Γ.inner.map Prod.fst⟩

namespace Scope

theorem lookup_flatten (blocks : List (List (String × Ty))) (name : String) :
    blocks.flatten.lookup name = blocks.findSome? (·.lookup name) := by
  induction blocks with
  | nil => rfl
  | cons block blocks ih =>
      rw [List.flatten_cons, List.lookup_append, ih, List.findSome?_cons]
      cases block.lookup name with
      | none => rfl
      | some type => rfl

theorem type?_ofEnv (Γ : Env) (name : String) : (ofEnv Γ).type? name = Γ.type? name :=
  lookup_flatten (Γ.inner :: Γ.outer) name

theorem after_ofEnv (Γ : Env) (s : Stmt .typed) : (ofEnv Γ).after s = ofEnv (Γ.after s.bare) := by
  cases s <;> rfl

theorem notMem_declared {Γ : Env} {name : String} :
    name ∉ (ofEnv Γ).declared ↔ ∀ σ, (name, σ) ∉ Γ.inner := by
  simp [ofEnv]

end Scope

theorem endsFlow_bare {Tag Mark : Type} (s : Stmt ⟨String, Tag, Mark⟩) :
    Check.endsFlow s.bare = Check.endsFlow s := by
  cases s <;> rfl

mutual

/-- What the checker has marked has the type of its mark by the rules. -/
theorem Expr.WellTyped.hasType : ∀ {e : Expr .typed} {Γ : Env} {l : Bool},
    e.WellTyped (.ofEnv Γ) l → HasType .expr Γ l e.bare e.tag
  | .int _ _, _, _, h => h ▸ .int
  | .string _ _, _, _, h => h ▸ .string
  | .bool _ _, _, _, h => h ▸ .bool
  | .unit _, _, _, h => h ▸ .unit
  | .var name t, Γ, l, h => .var ((Scope.type?_ofEnv Γ name).symm.trans h)
  | .assign name value t, Γ, l, h => by
      obtain ⟨hvalue, rfl, hname⟩ := h
      exact .assign ((Scope.type?_ofEnv Γ name).symm.trans hname) hvalue.hasType
  | .unary op operand t, Γ, l, h => .unary h.1.hasType h.2
  | .binary op left right t, Γ, l, h => .binary h.1.hasType h.2.1.hasType h.2.2
  | .block body t, Γ, l, h => by
      obtain ⟨hbody, rfl⟩ := h
      exact .block (Body.WellTyped.hasType hbody)
  | .choice cond body others t, Γ, l, h => by
      obtain ⟨hcond, hbool, hbody, rfl, hothers⟩ := h
      exact .choice (hbool ▸ hcond.hasType) (Body.WellTyped.hasType hbody) hothers.hasType
  | .loop cond body t, Γ, l, h => by
      obtain ⟨hcond, hbool, hbody, rfl⟩ := h
      exact .loop (hbool ▸ hcond.hasType) (Body.WellTyped.hasType hbody)

theorem Branches.WellTyped.hasType : ∀ {b : Branches .typed} {Γ : Env} {l : Bool} {τ : Ty},
    b.WellTyped (.ofEnv Γ) l τ → HasType .branches Γ l b.bare τ
  | .done, _, _, _, h => h ▸ .done
  | .otherwise body, Γ, l, _, h => by
      obtain ⟨hbody, rfl⟩ := h
      exact .otherwise (Body.WellTyped.hasType hbody)
  | .orIf cond body others, Γ, l, _, h => by
      obtain ⟨hcond, hbool, hbody, rfl, hothers⟩ := h
      exact .orIf (hbool ▸ hcond.hasType) (Body.WellTyped.hasType hbody) hothers.hasType

theorem Body.WellTyped.hasType : ∀ {body : List (Stmt .typed)} {Γ : Env} {l : Bool},
    Body.WellTyped (.ofEnv Γ) l body →
      HasType .body Γ l (Body.bare body) (Check.bodyType body)
  | [], _, _, _ => .empty
  | [s], Γ, l, h => .last h.1.hasType
  | s :: s' :: rest, Γ, l, h => by
      obtain ⟨hs, hflow, hrest⟩ := h
      rw [Scope.after_ofEnv] at hrest
      have hgoes : Check.endsFlow s.bare = false := by
        rw [endsFlow_bare]
        exact Bool.eq_false_iff.mpr fun hends => List.cons_ne_nil _ _ (hflow hends)
      exact .next hs.hasType hgoes (Body.WellTyped.hasType hrest)

theorem Stmt.WellTyped.hasType : ∀ {s : Stmt .typed} {Γ : Env} {l : Bool},
    s.WellTyped (.ofEnv Γ) l → HasType .stmt Γ l s.bare s.mark
  | .declare type name init m, Γ, l, h => by
      obtain ⟨hnew, hinit, rfl, rfl⟩ := h
      exact .declare (Scope.notMem_declared.mp hnew) hinit.hasType
  | .write newline value shown m, Γ, l, h => by
      obtain ⟨hvalue, rfl, rfl⟩ := h
      exact .write hvalue.hasType
  | .leave m, Γ, l, h => by
      obtain ⟨rfl, rfl⟩ := h
      exact .leave
  | .again m, Γ, l, h => by
      obtain ⟨rfl, rfl⟩ := h
      exact .again
  | .expr value m, Γ, l, h => by
      obtain ⟨hvalue, rfl⟩ := h
      exact .expr hvalue.hasType

end

namespace Check

section Results

variable {α β : Type} {x : Check α} {f : α → Check β} {a : α} {φ : α → Prop} {ψ : β → Prop}

/-- Whatever a check yields, from whatever state, is of a sort. -/
def Gives (x : Check α) (φ : α → Prop) : Prop := ∀ c a c', x c = (.ok a, c') → φ a

namespace Gives

theorem any : Gives x fun _ => True := fun _ _ _ _ => trivial

theorem pure (h : φ a) : Gives (Pure.pure a) φ := by
  rintro c _ _ ⟨⟩
  exact h

theorem bind (hx : Gives x φ) (hf : ∀ a, φ a → Gives (f a) ψ) : Gives (x >>= f) ψ := by
  intro c b c' h
  obtain ⟨a, c₁, ha, hb⟩ := bind_fine.mp h
  exact hf a (hx c a c₁ ha) c₁ b c' hb

theorem ite {p : Prop} [Decidable p] {y : Check α} (hx : Gives x φ) (hy : Gives y φ) :
    Gives (if p then x else y) φ := by
  split
  · exact hx
  · exact hy

theorem inBlock (hx : Gives x φ) : Gives (Check.inBlock x) φ := by
  intro c a c' h
  obtain ⟨c₁, hx', -⟩ := inBlock_fine h
  exact hx _ a c₁ hx'

theorem inLoop (hx : Gives x φ) : Gives (Check.inLoop x) φ := by
  intro c a c' h
  obtain ⟨c₁, hx', -⟩ := inLoop_fine h
  exact hx _ a c₁ hx'

theorem atStmt {token : Token} (hx : Gives x φ) : Gives (Check.atStmt token x) φ := by
  intro c a c' h
  obtain ⟨c₁, hx', -⟩ := atStmt_fine h
  exact hx _ a c₁ hx'

end Gives

end Results

mutual

/-- Checking adds types to an expression and changes nothing else in it. -/
theorem expr_bare : ∀ e : Expr .parsed, Gives (expr e) fun e' => e'.bare = e.bare
  | .int _ _ | .string _ _ | .bool _ _ | .unit _ => .pure rfl
  | .var _ _ => .bind .any fun _ _ => .pure rfl
  | .assign name value _ => by
      refine .bind .any fun t _ => .bind (expr_bare value) fun value' hvalue => .bind .any fun _ _ => ?_
      have hrest : Gives (pure (.assign name value' t) : Check (Expr .typed))
          fun e' => e'.bare = .assign name value.bare () := .pure (by rw [Expr.bare, hvalue])
      exact .ite (.bind .any fun _ _ => hrest) hrest
  | .unary op operand _ =>
      .bind (expr_bare operand) fun operand' h => .bind .any fun t _ => .pure (by
        rw [Expr.bare, Expr.bare, h])
  | .binary op left right _ =>
      .bind (expr_bare left) fun left' hl => .bind (expr_bare right) fun right' hr =>
        .bind .any fun t _ => .pure (by rw [Expr.bare, Expr.bare, hl, hr])
  | .block body _ =>
      .bind (.inBlock (stmts_bare body)) fun body' h => .pure (by rw [Expr.bare, Expr.bare, h])
  | .choice cond body others _ =>
      .bind (expr_bare cond) fun cond' hc => .bind .any fun _ _ =>
        .bind (.inBlock (stmts_bare body)) fun body' hb =>
          .bind (branches_bare others) fun others' ho => .pure (by
            rw [Expr.bare, Expr.bare, hc, hb, ho])
  | .loop cond body _ =>
      .bind (expr_bare cond) fun cond' hc => .bind .any fun _ _ =>
        .bind (.inLoop (.inBlock (stmts_bare body))) fun body' hb => .pure (by
          rw [Expr.bare, Expr.bare, hc, hb])

theorem branches_bare : ∀ (b : Branches .parsed) {first : Ty},
    Gives (branches first b) fun b' => b'.bare = b.bare
  | .done, _ => .bind .any fun _ _ => .pure rfl
  | .otherwise body, _ =>
      .bind (.inBlock (stmts_bare body)) fun body' h => .bind .any fun _ _ => .pure (by
        rw [Branches.bare, Branches.bare, h])
  | .orIf cond body others, _ =>
      .bind (expr_bare cond) fun cond' hc => .bind .any fun _ _ =>
        .bind (.inBlock (stmts_bare body)) fun body' hb => .bind .any fun _ _ =>
          .bind (branches_bare others) fun others' ho => .pure (by
            rw [Branches.bare, Branches.bare, hc, hb, ho])

theorem stmts_bare : ∀ body : List (Stmt .parsed),
    Gives (stmts body) fun body' => Body.bare body' = Body.bare body
  | [] => .pure rfl
  | s :: rest =>
      .bind (.atStmt (stmt_bare s)) fun s' hs => .bind .any fun _ _ =>
        .bind (stmts_bare rest) fun rest' hr => .pure (by rw [Body.bare, Body.bare, hs, hr])

theorem stmt_bare : ∀ s : Stmt .parsed, Gives (stmt s) fun s' => s'.bare = s.bare
  | .declare type name init _ => by
      refine .bind .any fun c _ => .bind .any fun _ _ => .bind (expr_bare init) fun init' h => ?_
      refine .bind .any fun _ _ => .bind .any fun c' _ => ?_
      have hrest : Gives (modify (fun c => { c with scope := c.scope.declare name type }) >>= fun _ =>
          (pure (.declare type name init' .unit) : Check (Stmt .typed)))
          fun s' => s'.bare = .declare type name init.bare () :=
        .bind .any fun _ _ => .pure (by rw [Stmt.bare, h])
      exact .ite (.bind .any fun _ _ => hrest) hrest
  | .write newline value _ _ =>
      .bind (expr_bare value) fun value' h => .pure (by rw [Stmt.bare, Stmt.bare, h])
  | .leave _ | .again _ => .bind .any fun _ _ => .bind .any fun _ _ => .pure rfl
  | .expr value _ =>
      .bind (expr_bare value) fun value' h => .pure (by rw [Stmt.bare, Stmt.bare, h])

end

/-! ### What has a type is accepted -/

/-- A checker is at a place of the program. -/
structure At (c : Checker) (Γ : Env) (l : Bool) : Prop where
  scope : c.scope = .ofEnv Γ
  inLoop : c.inLoop = l

section Success

variable {α β : Type} {x : Check α} {f : α → Check β} {a : α} {c c' : Checker} {Γ : Env} {l : Bool}
  {φ : α → Checker → Prop} {ψ : β → Checker → Prop}

/-- A check succeeds from a state, with a result and in a state of a sort. -/
def Yields (x : Check α) (c : Checker) (φ : α → Checker → Prop) : Prop :=
  ∃ a c', x c = (.ok a, c') ∧ φ a c'

namespace Yields

theorem pure (h : φ a c) : Yields (Pure.pure a) c φ := ⟨a, c, rfl, h⟩

theorem bind (hx : Yields x c φ) (hf : ∀ a c', φ a c' → Yields (f a) c' ψ) :
    Yields (x >>= f) c ψ := by
  obtain ⟨a, c₁, ha, hφ⟩ := hx
  obtain ⟨b, c₂, hb, hψ⟩ := hf a c₁ hφ
  exact ⟨b, c₂, bind_fine.mpr ⟨a, c₁, ha, hb⟩, hψ⟩

theorem and_gives {p : α → Prop} (hx : Yields x c φ) (h : Gives x p) :
    Yields x c fun a c' => φ a c' ∧ p a := by
  obtain ⟨a, c₁, ha, hφ⟩ := hx
  exact ⟨a, c₁, ha, hφ, h c a c₁ ha⟩

theorem get : Yields MonadState.get c fun c' c'' => c' = c ∧ c'' = c := ⟨c, c, rfl, rfl, rfl⟩

theorem lookup {name : String} {t : Ty} (hc : At c Γ l) (ht : Γ.type? name = some t) :
    Yields (Check.lookup name) c fun t' c' => t' = t ∧ c' = c := by
  refine ⟨t, c, ?_, rfl, rfl⟩
  rw [Check.lookup, hc.scope, Scope.type?_ofEnv, ht]

theorem require {holds : Bool} {cause : TypeCause} (h : holds = true) :
    Yields (Check.require holds cause) c fun _ c' => c' = c := by
  rw [Check.require, if_pos h]
  exact .pure rfl

theorem lift {r : Except TypeCause α} (h : r = .ok a) :
    Yields (Check.lift r) c fun a' c' => a' = a ∧ c' = c := by
  rw [h]
  exact .pure ⟨rfl, rfl⟩

theorem warned {noted : Bool} {concern : Concern} {f : Unit → Check α} (hc : At c Γ l)
    (h : ∀ c', At c' Γ l → Yields (f ()) c' φ) :
    Yields (if noted then warn concern >>= f else f ()) c φ := by
  cases noted with
  | true => exact h { c with notices := c.notices ++ [⟨concern, c.stmt⟩] } ⟨hc.scope, hc.inLoop⟩
  | false => exact h c hc

theorem condition {construct : String} {cond : Expr .parsed} (hc : At c Γ l) :
    Yields (Check.condition construct cond .bool) c fun _ c' => At c' Γ l := by
  refine .bind (.require rfl) ?_
  rintro _ _ rfl
  cases cond with
  | bool value => exact ⟨(), _, rfl, hc.scope, hc.inLoop⟩
  | _ => exact .pure hc

theorem followed {s : Stmt .parsed} {rest : Body .parsed} (h : endsFlow s = true → rest = []) :
    Yields (Check.followed s rest) c fun _ c' => c' = c := by
  cases rest with
  | nil => exact .pure rfl
  | cons next rest =>
      have hs : ¬endsFlow s = true := fun hs => List.cons_ne_nil _ _ (h hs)
      rw [Check.followed, if_neg hs]
      exact .pure rfl

theorem inBlock {p : α → Prop} (hc : At c Γ l)
    (hx : ∀ c, At c Γ.enter l → Yields x c fun a c' => p a ∧ c'.inLoop = l) :
    Yields (Check.inBlock x) c fun a c' => p a ∧ At c' Γ l := by
  obtain ⟨a, c₁, ha, hp, hloop⟩ := hx { c with scope := c.scope.child } ⟨by rw [hc.scope]; rfl, hc.inLoop⟩
  refine ⟨a, { c₁ with scope := c.scope }, ?_, hp, hc.scope, hloop⟩
  rw [Check.inBlock, bracket, ha]

theorem inLoop {p : α → Prop} (hc : At c Γ l)
    (hx : ∀ c, At c Γ true → Yields x c fun a c' => p a ∧ At c' Γ true) :
    Yields (Check.inLoop x) c fun a c' => p a ∧ At c' Γ l := by
  obtain ⟨a, c₁, ha, hp, hat⟩ := hx { c with inLoop := true } ⟨hc.scope, rfl⟩
  refine ⟨a, { c₁ with inLoop := c.inLoop }, ?_, hp, hat.scope, hc.inLoop⟩
  rw [Check.inLoop, bracket, ha]

theorem atStmt {token : Token} {p : α → Prop} {Δ : Env} (hc : At c Γ l)
    (hx : ∀ c, At c Γ l → Yields x c fun a c' => p a ∧ At c' Δ l) :
    Yields (Check.atStmt token x) c fun a c' => p a ∧ At c' Δ l := by
  obtain ⟨a, c₁, ha, hp, hat⟩ := hx { c with stmt := token } ⟨hc.scope, hc.inLoop⟩
  refine ⟨a, { c₁ with stmt := c.stmt }, ?_, hp, hat.scope, hat.inLoop⟩
  rw [Check.atStmt, bracket, ha]

end Yields

end Success

mutual

/-- An expression that has a type is accepted with it, by induction on the tree. -/
theorem expr_yields : ∀ (e : Expr .parsed) {Γ : Env} {l : Bool} {τ : Ty} {c : Checker},
    HasType .expr Γ l e.bare τ → At c Γ l →
      Yields (expr e) c fun e' c' => e'.tag = τ ∧ At c' Γ l
  | .int _ _, _, _, _, _, h, hc | .string _ _, _, _, _, _, h, hc | .bool _ _, _, _, _, _, h, hc
  | .unit _, _, _, _, _, h, hc => by
      cases h
      exact .pure ⟨rfl, hc⟩
  | .var name _, Γ, l, τ, c, h, hc => by
      cases h with
      | var hname =>
          refine .bind (.lookup hc hname) ?_
          rintro _ _ ⟨rfl, rfl⟩
          exact .pure ⟨rfl, hc⟩
  | .assign name value _, Γ, l, τ, c, h, hc => by
      cases h with
      | assign hname hvalue =>
          refine .bind (.lookup hc hname) ?_
          rintro _ _ ⟨rfl, rfl⟩
          refine .bind (expr_yields value hvalue hc) ?_
          rintro value' c₁ ⟨htag, hc₁⟩
          refine .bind (.require (decide_eq_true htag)) ?_
          rintro _ _ rfl
          exact .warned hc₁ fun c₂ hc₂ => .pure ⟨rfl, hc₂⟩
  | .unary op operand _, Γ, l, τ, c, h, hc => by
      cases h with
      | unary hoperand hop =>
          refine .bind (expr_yields operand hoperand hc) ?_
          rintro operand' c₁ ⟨rfl, hc₁⟩
          refine .bind (.lift (unaryType_ok.mpr hop)) ?_
          rintro _ _ ⟨rfl, rfl⟩
          exact .pure ⟨rfl, hc₁⟩
  | .binary op left right _, Γ, l, τ, c, h, hc => by
      cases h with
      | binary hleft hright hop =>
          refine .bind (expr_yields left hleft hc) ?_
          rintro left' c₁ ⟨rfl, hc₁⟩
          refine .bind (expr_yields right hright hc₁) ?_
          rintro right' c₂ ⟨rfl, hc₂⟩
          refine .bind (.lift (binaryType_ok.mpr hop)) ?_
          rintro _ _ ⟨rfl, rfl⟩
          exact .pure ⟨rfl, hc₂⟩
  | .block body _, Γ, l, τ, c, h, hc => by
      cases h with
      | block hbody =>
          refine .bind (.inBlock hc fun _ => stmts_yields body hbody) ?_
          rintro body' c₁ ⟨rfl, hc₁⟩
          exact .pure ⟨rfl, hc₁⟩
  | .choice cond body others _, Γ, l, τ, c, h, hc => by
      cases h with
      | choice hcond hbody hothers =>
          refine .bind (expr_yields cond hcond hc) ?_
          rintro cond' c₁ ⟨htag, hc₁⟩
          rw [htag]
          refine .bind (.condition hc₁) fun _ c₂ hc₂ => ?_
          refine .bind (.inBlock hc₂ fun _ => stmts_yields body hbody) ?_
          rintro body' c₃ ⟨rfl, hc₃⟩
          refine .bind (branches_yields others hothers hc₃) fun others' c₄ hc₄ => ?_
          exact .pure ⟨rfl, hc₄⟩
  | .loop cond body _, Γ, l, τ, c, h, hc => by
      cases h with
      | loop hcond hbody =>
          refine .bind (expr_yields cond hcond hc) ?_
          rintro cond' c₁ ⟨htag, hc₁⟩
          rw [htag]
          refine .bind (.condition hc₁) fun _ c₂ hc₂ => ?_
          refine .bind (.inLoop hc₂ fun _ hc => .inBlock hc fun _ => stmts_yields body hbody) ?_
          rintro body' c₃ ⟨-, hc₃⟩
          exact .pure ⟨rfl, hc₃⟩

/-- Branches that all have the type of the first one are accepted. -/
theorem branches_yields : ∀ (b : Branches .parsed) {Γ : Env} {l : Bool} {τ : Ty} {c : Checker},
    HasType .branches Γ l b.bare τ → At c Γ l → Yields (branches τ b) c fun _ c' => At c' Γ l
  | .done, _, _, _, _, h, hc => by
      cases h
      refine .bind (.require rfl) ?_
      rintro _ _ rfl
      exact .pure hc
  | .otherwise body, Γ, l, τ, c, h, hc => by
      cases h with
      | otherwise hbody =>
          refine .bind (.inBlock hc fun _ => stmts_yields body hbody) ?_
          rintro body' c₁ ⟨htype, hc₁⟩
          refine .bind (.require (decide_eq_true htype)) ?_
          rintro _ _ rfl
          exact .pure hc₁
  | .orIf cond body others, Γ, l, τ, c, h, hc => by
      cases h with
      | orIf hcond hbody hothers =>
          refine .bind (expr_yields cond hcond hc) ?_
          rintro cond' c₁ ⟨htag, hc₁⟩
          rw [htag]
          refine .bind (.condition hc₁) fun _ c₂ hc₂ => ?_
          refine .bind (.inBlock hc₂ fun _ => stmts_yields body hbody) ?_
          rintro body' c₃ ⟨htype, hc₃⟩
          refine .bind (.require (decide_eq_true htype)) ?_
          rintro _ _ rfl
          exact .bind (branches_yields others hothers hc₃) fun others' c₄ hc₄ => .pure hc₄

/-- A body that has a type is accepted with it. What is yielded is as long as what was given, so it has a last
statement if that had one. -/
theorem stmts_yields : ∀ (body : List (Stmt .parsed)) {Γ : Env} {l : Bool} {τ : Ty} {c : Checker},
    HasType .body Γ l (Body.bare body) τ → At c Γ l →
      Yields (stmts body) c fun body' c' => bodyType body' = τ ∧ c'.inLoop = l
  | [], _, _, _, _, h, hc => by
      cases h
      exact .pure ⟨rfl, hc.inLoop⟩
  | [s], Γ, l, τ, c, h, hc => by
      cases h with
      | last hs =>
          refine .bind (.atStmt hc fun _ => stmt_yields s hs) ?_
          rintro s' c₁ ⟨rfl, hc₁⟩
          refine .bind (.followed fun _ => rfl) ?_
          rintro _ _ rfl
          exact .pure ⟨rfl, hc₁.inLoop⟩
  | s :: s₁ :: rest, Γ, l, τ, c, h, hc => by
      cases h with
      | next hs hflow hrest =>
          rw [endsFlow_bare] at hflow
          refine .bind (.atStmt hc fun _ => stmt_yields s hs) ?_
          rintro s' c₁ ⟨-, hc₁⟩
          refine .bind (.followed fun hends => absurd (hflow.symm.trans hends) Bool.false_ne_true) ?_
          rintro _ _ rfl
          refine .bind ((stmts_yields (s₁ :: rest) hrest hc₁).and_gives (stmts_bare (s₁ :: rest))) ?_
          rintro rest' c₂ ⟨⟨rfl, hloop⟩, hbare⟩
          cases rest' with
          | nil => cases hbare
          | cons s₁' rest' => exact .pure ⟨rfl, hloop⟩

/-- A typed statement is accepted with its type. A declared name must be new in its own block only, whatever the
blocks around it declare. -/
theorem stmt_yields : ∀ (s : Stmt .parsed) {Γ : Env} {l : Bool} {τ : Ty} {c : Checker},
    HasType .stmt Γ l s.bare τ → At c Γ l →
      Yields (stmt s) c fun s' c' => s'.mark = τ ∧ At c' (Γ.after s.bare) l
  | .declare type name init _, Γ, l, τ, c, h, hc => by
      cases h with
      | declare hnew hinit =>
          have hscope : (!c.scope.declared.contains name) = true := by
            rw [hc.scope]
            simpa using Scope.notMem_declared.mpr hnew
          refine .bind .get ?_
          rintro _ _ ⟨rfl, rfl⟩
          refine .bind (.require hscope) ?_
          rintro _ _ rfl
          refine .bind (expr_yields init hinit hc) ?_
          rintro init' c₁ ⟨htag, hc₁⟩
          refine .bind (.require (decide_eq_true htag)) ?_
          rintro _ _ rfl
          refine .bind .get ?_
          rintro _ _ ⟨rfl, rfl⟩
          refine .warned hc₁ fun c₂ hc₂ => ?_
          refine ⟨_, { c₂ with scope := c₂.scope.declare name type }, rfl, rfl, ?_, hc₂.inLoop⟩
          rw [hc₂.scope]
          rfl
  | .write newline value _ _, Γ, l, τ, c, h, hc => by
      cases h with
      | write hvalue =>
          refine .bind (expr_yields value hvalue hc) ?_
          rintro value' c₁ ⟨-, hc₁⟩
          exact .pure ⟨rfl, hc₁⟩
  | .leave _, Γ, l, τ, c, h, hc | .again _, Γ, l, τ, c, h, hc => by
      cases h
      refine .bind .get ?_
      rintro _ _ ⟨rfl, rfl⟩
      refine .bind (.require hc.inLoop) ?_
      rintro _ _ rfl
      exact .pure ⟨rfl, hc⟩
  | .expr value _, Γ, l, τ, c, h, hc => by
      cases h with
      | expr hvalue =>
          refine .bind (expr_yields value hvalue hc) ?_
          rintro value' c₁ ⟨rfl, hc₁⟩
          exact .pure ⟨rfl, hc₁⟩

end

end Check

/-- The rules give a tree one type, and this is it. -/
def Assigned (k : Kind) (Γ : Env) (l : Bool) (tree : k.Tree) (τ : Ty) : Prop :=
  ∀ σ, HasType k Γ l tree σ ↔ σ = τ

theorem HasType.assigned {k : Kind} {Γ : Env} {l : Bool} {tree : k.Tree} {τ : Ty}
    (h : HasType k Γ l tree τ) : Assigned k Γ l tree τ :=
  fun _ => ⟨fun h' => h'.unique h, fun heq => heq ▸ h⟩

mutual

/-- Every expression and every statement in an expression carries the type that the rules give it at
its place. -/
def Expr.Annotated (Γ : Env) (l : Bool) : Expr .typed → Prop
  | .int value t => Assigned .expr Γ l (.int value ()) t
  | .string value t => Assigned .expr Γ l (.string value ()) t
  | .bool value t => Assigned .expr Γ l (.bool value ()) t
  | .unit t => Assigned .expr Γ l (.unit ()) t
  | .var name t => Assigned .expr Γ l (.var name ()) t
  | .assign name value t => Assigned .expr Γ l (.assign name value.bare ()) t ∧ value.Annotated Γ l
  | .unary op operand t =>
    Assigned .expr Γ l (.unary op operand.bare ()) t ∧ operand.Annotated Γ l
  | .binary op left right t =>
    Assigned .expr Γ l (.binary op left.bare right.bare ()) t ∧ left.Annotated Γ l ∧
      right.Annotated Γ l
  | .block body t =>
    Assigned .expr Γ l (.block (Body.bare body) ()) t ∧ Body.Annotated Γ.enter l body
  | .choice cond body others t =>
    Assigned .expr Γ l (.choice cond.bare (Body.bare body) others.bare ()) t ∧ cond.Annotated Γ l ∧
      Body.Annotated Γ.enter l body ∧ others.Annotated Γ l
  | .loop cond body t =>
    Assigned .expr Γ l (.loop cond.bare (Body.bare body) ()) t ∧ cond.Annotated Γ l ∧
      Body.Annotated Γ.enter true body

/-- The same of the later branches of a choice. -/
def Branches.Annotated (Γ : Env) (l : Bool) : Branches .typed → Prop
  | .done => True
  | .otherwise body => Body.Annotated Γ.enter l body
  | .orIf cond body others =>
    cond.Annotated Γ l ∧ Body.Annotated Γ.enter l body ∧ others.Annotated Γ l

def Body.Annotated (Γ : Env) (l : Bool) : List (Stmt .typed) → Prop
  | [] => True
  | s :: rest => s.Annotated Γ l ∧ Body.Annotated (Γ.after s.bare) l rest

/-- A statement that prints also carries the type of what it prints. -/
def Stmt.Annotated (Γ : Env) (l : Bool) : Stmt .typed → Prop
  | .declare type name init m =>
    Assigned .stmt Γ l (.declare type name init.bare ()) m ∧ init.Annotated Γ l
  | .write newline value shown m =>
    Assigned .stmt Γ l (.write newline value.bare () ()) m ∧ Assigned .expr Γ l value.bare shown ∧
      value.Annotated Γ l
  | .leave m => Assigned .stmt Γ l (.leave ()) m
  | .again m => Assigned .stmt Γ l (.again ()) m
  | .expr value m => Assigned .stmt Γ l (.expr value.bare ()) m ∧ value.Annotated Γ l

end

mutual

/-- Every part of a checked expression carries the type that the rules give it. -/
theorem Expr.WellTyped.annotated : ∀ {e : Expr .typed} {Γ : Env} {l : Bool},
    e.WellTyped (.ofEnv Γ) l → e.Annotated Γ l
  | .int _ _, _, _, h | .string _ _, _, _, h | .bool _ _, _, _, h | .unit _, _, _, h
  | .var _ _, _, _, h => HasType.assigned (Expr.WellTyped.hasType h)
  | .assign name value t, Γ, l, h => ⟨(Expr.WellTyped.hasType h).assigned, h.1.annotated⟩
  | .unary op operand t, Γ, l, h => ⟨(Expr.WellTyped.hasType h).assigned, h.1.annotated⟩
  | .binary op left right t, Γ, l, h =>
      ⟨(Expr.WellTyped.hasType h).assigned, h.1.annotated, h.2.1.annotated⟩
  | .block body t, Γ, l, h =>
      ⟨(Expr.WellTyped.hasType h).assigned, Body.WellTyped.annotated h.1⟩
  | .choice cond body others t, Γ, l, h => by
      obtain ⟨hcond, -, hbody, -, hothers⟩ := id h
      exact ⟨(Expr.WellTyped.hasType h).assigned, hcond.annotated, Body.WellTyped.annotated hbody,
        hothers.annotated⟩
  | .loop cond body t, Γ, l, h => by
      obtain ⟨hcond, -, hbody, -⟩ := id h
      exact ⟨(Expr.WellTyped.hasType h).assigned, hcond.annotated, Body.WellTyped.annotated hbody⟩

theorem Branches.WellTyped.annotated : ∀ {b : Branches .typed} {Γ : Env} {l : Bool} {τ : Ty},
    b.WellTyped (.ofEnv Γ) l τ → b.Annotated Γ l
  | .done, _, _, _, _ => trivial
  | .otherwise body, Γ, l, _, h => Body.WellTyped.annotated h.1
  | .orIf cond body others, Γ, l, _, h => by
      obtain ⟨hcond, -, hbody, -, hothers⟩ := h
      exact ⟨hcond.annotated, Body.WellTyped.annotated hbody, hothers.annotated⟩

theorem Body.WellTyped.annotated : ∀ {body : List (Stmt .typed)} {Γ : Env} {l : Bool},
    Body.WellTyped (.ofEnv Γ) l body → Body.Annotated Γ l body
  | [], _, _, _ => trivial
  | s :: rest, Γ, l, h => by
      obtain ⟨hs, -, hrest⟩ := h
      rw [Scope.after_ofEnv] at hrest
      exact ⟨hs.annotated, Body.WellTyped.annotated hrest⟩

theorem Stmt.WellTyped.annotated : ∀ {s : Stmt .typed} {Γ : Env} {l : Bool},
    s.WellTyped (.ofEnv Γ) l → s.Annotated Γ l
  | .declare type name init m, Γ, l, h => ⟨(Stmt.WellTyped.hasType h).assigned, h.2.1.annotated⟩
  | .write newline value shown m, Γ, l, h => by
      have hassigned := (Stmt.WellTyped.hasType h).assigned
      obtain ⟨hvalue, rfl, -⟩ := h
      exact ⟨hassigned, hvalue.hasType.assigned, hvalue.annotated⟩
  | .leave m, Γ, l, h | .again m, Γ, l, h => HasType.assigned (Stmt.WellTyped.hasType h)
  | .expr value m, Γ, l, h => ⟨(Stmt.WellTyped.hasType h).assigned, h.1.annotated⟩

end

/-- A fresh checker accepts the programs that have a type by the rules and no others. What it yields
is the program that it was given, annotated with the types that the rules give to its nodes. -/
theorem Checker.check_ok_iff_hasType (program : Body .parsed) :
    ((∃ typed, (({} : Checker).check program).1 = .ok typed) ↔
        ∃ τ, HasType .body {} false (Body.bare program) τ) ∧
      ∀ typed, (({} : Checker).check program).1 = .ok typed →
        Body.bare typed = Body.bare program ∧ Body.Annotated {} false typed := by
  have hstate : ∀ {typed}, (({} : Checker).check program).1 = .ok typed →
      Check.stmts program {} = (.ok typed, (({} : Checker).check program).2) := fun h => by
    rw [← h]
    rfl
  have hbare : ∀ {typed}, (({} : Checker).check program).1 = .ok typed →
      Body.bare typed = Body.bare program :=
    fun h => Check.stmts_bare program _ _ _ (hstate h)
  have hwell : ∀ {typed}, (({} : Checker).check program).1 = .ok typed →
      Body.WellTyped (.ofEnv {}) false typed :=
    fun h => Checker.check_wellTyped (hstate h)
  refine ⟨⟨?_, ?_⟩, fun typed h => ⟨hbare h, (hwell h).annotated⟩⟩
  · rintro ⟨typed, h⟩
    exact ⟨Check.bodyType typed, hbare h ▸ (hwell h).hasType⟩
  · rintro ⟨τ, hτ⟩
    obtain ⟨typed, c, h, -⟩ := Check.stmts_yields program (c := {}) hτ ⟨rfl, rfl⟩
    exact ⟨typed, congrArg Prod.fst h⟩

theorem Checker.check_ok_iff_hasType_shadowing :
    ∃ typed,
      (({} : Checker).check [.declare .int "x" (.int 1 ()) {},
        .expr (.loop (.binary .lt (.var "x" ()) (.int 2 ()) ())
          [.declare .bool "x" (.bool true ()) {}, .write true (.var "x" ()) () {}, .leave {}] ())
          {}]).1 = .ok typed ∧
      (∃ τ, HasType .body {} false (Body.bare typed) τ) ∧ Body.Annotated {} false typed := by
  obtain ⟨haccepts, hyields⟩ := Checker.check_ok_iff_hasType [.declare .int "x" (.int 1 ()) {},
    .expr (.loop (.binary .lt (.var "x" ()) (.int 2 ()) ())
      [.declare .bool "x" (.bool true ()) {}, .write true (.var "x" ()) () {}, .leave {}] ()) {}]
  obtain ⟨hbare, hannotated⟩ := hyields _ rfl
  refine ⟨_, rfl, ?_, hannotated⟩
  rw [hbare]
  exact haccepts.mp ⟨_, rfl⟩

end BlockLang

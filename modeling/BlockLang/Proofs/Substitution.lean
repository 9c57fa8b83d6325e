import BlockLang.Proofs.Places
import BlockLang.Proofs.Renaming

/-! One constant in place of another. Two trees are compared that are the same but for some places, where
the one has one constant and the other has another. Whatever the later stages make of the one tree,
they make of the other, with the one constant in place of the other; so the code of the one is the code
of the other, with the code of the one constant in place of that of the other, as often as there are
such places. -/

namespace BlockLang

abbrev Kind.In (P : Phase) : Kind → Type
  | expr => Expr P
  | branches => Branches P
  | body => Body P
  | stmt => Stmt P

/-- Trees that are the same but for a number of places, where the one has `a` and the other has `b`, and
but for the marks of statements, which are related. -/
inductive Swaps {P : Phase} (marks : P.Mark → P.Mark → Prop) (a b : Expr P) :
    (k : Kind) → Nat → k.In P → k.In P → Prop where
  | here : Swaps marks a b .expr 1 a b
  | int {value tag} : Swaps marks a b .expr 0 (.int value tag) (.int value tag)
  | string {value tag} : Swaps marks a b .expr 0 (.string value tag) (.string value tag)
  | bool {value tag} : Swaps marks a b .expr 0 (.bool value tag) (.bool value tag)
  | unit {tag} : Swaps marks a b .expr 0 (.unit tag) (.unit tag)
  | var {name tag} : Swaps marks a b .expr 0 (.var name tag) (.var name tag)
  | assign {n name value value' tag} : Swaps marks a b .expr n value value' →
      Swaps marks a b .expr n (.assign name value tag) (.assign name value' tag)
  | unary {n op operand operand' tag} : Swaps marks a b .expr n operand operand' →
      Swaps marks a b .expr n (.unary op operand tag) (.unary op operand' tag)
  | binary {n m op left left' right right' tag} : Swaps marks a b .expr n left left' →
      Swaps marks a b .expr m right right' →
      Swaps marks a b .expr (n + m) (.binary op left right tag) (.binary op left' right' tag)
  | block {n body body' tag} : Swaps marks a b .body n body body' →
      Swaps marks a b .expr n (.block body tag) (.block body' tag)
  | choice {n m l cond cond' body body' others others' tag} : Swaps marks a b .expr n cond cond' →
      Swaps marks a b .body m body body' → Swaps marks a b .branches l others others' →
      Swaps marks a b .expr (n + m + l) (.choice cond body others tag) (.choice cond' body' others' tag)
  | loop {n m cond cond' body body' tag} : Swaps marks a b .expr n cond cond' →
      Swaps marks a b .body m body body' →
      Swaps marks a b .expr (n + m) (.loop cond body tag) (.loop cond' body' tag)
  | done : Swaps marks a b .branches 0 .done .done
  | otherwise {n body body'} : Swaps marks a b .body n body body' →
      Swaps marks a b .branches n (.otherwise body) (.otherwise body')
  | orIf {n m l cond cond' body body' others others'} : Swaps marks a b .expr n cond cond' →
      Swaps marks a b .body m body body' → Swaps marks a b .branches l others others' →
      Swaps marks a b .branches (n + m + l) (.orIf cond body others) (.orIf cond' body' others')
  | nil : Swaps marks a b .body 0 [] []
  | cons {n m s s' rest rest'} : Swaps marks a b .stmt n s s' → Swaps marks a b .body m rest rest' →
      Swaps marks a b .body (n + m) (s :: rest) (s' :: rest')
  | declare {n type name init init' m m'} : marks m m' → Swaps marks a b .expr n init init' →
      Swaps marks a b .stmt n (.declare type name init m) (.declare type name init' m')
  | write {n newline value value' shown m m'} : marks m m' → Swaps marks a b .expr n value value' →
      Swaps marks a b .stmt n (.write newline value shown m) (.write newline value' shown m')
  | leave {m m'} : marks m m' → Swaps marks a b .stmt 0 (.leave m) (.leave m')
  | again {m m'} : marks m m' → Swaps marks a b .stmt 0 (.again m) (.again m')
  | expr {n value value' m m'} : marks m m' → Swaps marks a b .expr n value value' →
      Swaps marks a b .stmt n (.expr value m) (.expr value' m')

namespace Swaps

variable {P : Phase} {marks : P.Mark → P.Mark → Prop} {a b : Expr P} {n : Nat}

theorem tag_eq {e e' : Expr P} (h : Swaps marks a b .expr n e e') (hab : a.tag = b.tag) :
    e.tag = e'.tag := by
  cases h with
  | here => exact hab
  | int | string | bool | unit | var | assign | unary | binary | block | choice | loop => rfl

theorem mark_eq {s s' : Stmt P} (h : Swaps Eq a b .stmt n s s') : s.mark = s'.mark := by
  cases h with
  | declare hmark | write hmark | leave hmark | again hmark | expr hmark => exact hmark

theorem endsFlow_eq {s s' : Stmt P} (h : Swaps marks a b .stmt n s s') :
    Check.endsFlow s = Check.endsFlow s' := by
  cases h with
  | declare | write | leave | again | expr => rfl

theorem isEmpty_eq {body body' : Body P} (h : Swaps marks a b .body n body body') :
    body.isEmpty = body'.isEmpty := by
  cases h with
  | nil | cons => rfl

theorem map_mark_eq {body body' : Body P} (h : Swaps Eq a b .body n body body') :
    body.map Stmt.mark = body'.map Stmt.mark := by
  induction body generalizing n body' with
  | nil =>
      cases h with
      | nil => rfl
  | cons s rest ih =>
      cases h with
      | cons hs hrest => rw [List.map_cons, List.map_cons, hs.mark_eq, ih hrest]

theorem bodyType_eq {a b : Expr .typed} {body body' : Body .typed} (h : Swaps Eq a b .body n body body') :
    Check.bodyType body = Check.bodyType body' := by
  rw [Resolve.bodyType_eq_marks, Resolve.bodyType_eq_marks, h.map_mark_eq]

end Swaps

def Context.instrs (c : Context) : List Instr := c.code.toList.map (·.instr)

/-- An integer that is written without names, in every phase: it needs nothing around it and leaves
nothing behind but its code. -/
structure Constant where
  parsed : Expr .parsed
  typed : Expr .typed
  resolved : Expr .resolved
  code : List Instr
  checks : ∀ c, Check.expr parsed c = (.ok typed, c)
  resolves : ∀ s, Resolve.expr typed s = .ok (resolved, s)
  emits : ∀ frame c, ∃ c', Emit.expr frame resolved c = .ok ((), c') ∧ c'.instrs = c.instrs ++ code ∧
    c'.strings = c.strings ∧ c'.labels = c.labels ∧ c'.depth = c.depth + 1
  typed_tag : typed.tag = .int
  resolved_tag : resolved.tag = .int

def Constant.literal (n : Int64) : Constant where
  parsed := .int n ()
  typed := .int n .int
  resolved := .int n .int
  code := [Instr.of .pushInt n]
  checks _ := rfl
  resolves _ := rfl
  emits frame c := by
    refine ⟨c.emit .pushInt n, rfl, ?_, rfl, rfl, rfl⟩
    simp [Context.instrs, Context.emit]
  typed_tag := rfl
  resolved_tag := rfl

/-- A literal behind a minus sign. -/
def Constant.negated (n : Int64) : Constant where
  parsed := .unary .negate (.int n ()) ()
  typed := .unary .negate (.int n .int) .int
  resolved := .unary .negate (.int n .int) .int
  code := [Instr.of .pushInt n, Instr.of .neg 0]
  checks _ := rfl
  resolves _ := rfl
  emits frame c := by
    refine ⟨(c.emit .pushInt n).emit .neg 0, rfl, ?_, rfl, rfl, rfl⟩
    simp [Context.instrs, Context.emit]
  typed_tag := rfl
  resolved_tag := rfl

/-! ### Checking -/

namespace Check

open Sequence

/-- Checkers that see the same variables and are in a loop alike. -/
structure Beside (c c' : Checker) : Prop where
  scope : c'.scope = c.scope
  inLoop : c'.inLoop = c.inLoop

section Transfer

variable {α β γ δ : Type} {R : α → β → Prop} {S : γ → δ → Prop} {x : Check α} {y : Check β}
  {f : α → Check γ} {g : β → Check δ}

/-- If one check succeeds, so does another one from a checker beside, with a related result. -/
structure Transfers (R : α → β → Prop) (x : Check α) (y : Check β) : Prop where
  fine : ∀ {c c₁ a c'}, x c = (.ok a, c₁) → Beside c c' →
    ∃ b c₁', y c' = (.ok b, c₁') ∧ R a b ∧ Beside c₁ c₁'

namespace Transfers

theorem pure {a : α} {b : β} (h : R a b) : Transfers R (Pure.pure a) (Pure.pure b) := by
  constructor
  intro c c₁ a' c' hx hc
  cases hx
  exact ⟨b, c', rfl, h, hc⟩

theorem bind (hx : Transfers R x y) (hf : ∀ a b, R a b → Transfers S (f a) (g b)) :
    Transfers S (x >>= f) (y >>= g) := by
  constructor
  intro c c₁ r c' h hc
  obtain ⟨a, c₂, ha, h⟩ := bind_fine.mp h
  obtain ⟨b, c₂', hb, hab, hc₂⟩ := hx.fine ha hc
  obtain ⟨r', c₁', hr, hrr, hc₁⟩ := (hf a b hab).fine h hc₂
  exact ⟨r', c₁', bind_fine.mpr ⟨b, c₂', hb, hr⟩, hrr, hc₁⟩

theorem map {k : α → γ} {l : β → δ} (hx : Transfers R x y) (hk : ∀ a b, R a b → S (k a) (l b)) :
    Transfers S (x >>= fun a => Pure.pure (k a)) (y >>= fun b => Pure.pure (l b)) :=
  .bind hx fun a b hab => .pure (hk a b hab)

theorem get {f : Checker → Check γ} {g : Checker → Check δ}
    (hf : ∀ c c', Beside c c' → Transfers S (f c) (g c')) :
    Transfers S (MonadState.get >>= f) (MonadState.get >>= g) := by
  constructor
  intro c c₁ r c' h hc
  exact (hf c c' hc).fine h hc

theorem lookup {name : String} : Transfers Eq (lookup name) (lookup name) := by
  constructor
  intro c c₁ a c' h hc
  rw [Check.lookup] at h ⊢
  rw [hc.scope]
  cases htype : c.scope.type? name with
  | some type =>
      rw [htype] at h
      cases h
      exact ⟨_, c', rfl, rfl, hc⟩
  | none =>
      rw [htype] at h
      cases h

theorem require {holds holds' : Bool} {cause cause' : TypeCause} (h : holds = holds') :
    Transfers (fun _ _ => True) (require holds cause) (require holds' cause') := by
  subst h
  cases holds with
  | true => exact .pure trivial
  | false =>
      constructor
      intro c c₁ a c' h
      cases h

theorem lift {r r' : Except TypeCause α} (h : r = r') : Transfers Eq (lift r) (lift r') := by
  subst h
  cases r with
  | ok a => exact .pure rfl
  | error cause =>
      constructor
      intro c c₁ a c' h
      cases h

/-- A warning on either side changes nothing. -/
theorem warned {noted noted' : Bool} {concern concern' : Concern} {f : Unit → Check γ}
    {g : Unit → Check δ} (hf : Transfers S (f ()) (g ())) :
    Transfers S (if noted then warn concern >>= f else f ())
      (if noted' then warn concern' >>= g else g ()) := by
  have hwarn : ∀ {c c' : Checker} (noted : Bool) (concern : Concern), Beside c c' →
      ∃ c'', (if noted then warn concern >>= g else g ()) c' = g () c'' ∧ Beside c c'' := by
    intro c c' noted concern hc
    cases noted with
    | true => exact ⟨_, rfl, hc.scope, hc.inLoop⟩
    | false => exact ⟨_, rfl, hc⟩
  constructor
  intro c c₁ r c' h hc
  obtain ⟨c₂', heq, hc₂⟩ := hwarn noted' concern' hc
  rw [heq]
  cases noted with
  | true => exact hf.fine h ⟨hc₂.scope, hc₂.inLoop⟩
  | false => exact hf.fine h hc₂

theorem condition {construct : String} {cond cond' : Expr .parsed} {type : Ty} :
    Transfers (fun _ _ => True) (condition construct cond type) (condition construct cond' type) := by
  have hnoted : ∀ cond : Expr .parsed, ∃ noted concern, Check.condition construct cond type =
      (Check.require (type = .bool) (.badCondition construct type) >>= fun _ =>
        if noted = true then warn concern >>= Pure.pure else Pure.pure ()) := by
    intro cond
    cases cond with
    | bool value => exact ⟨true, .constantCondition construct value, rfl⟩
    | _ => exact ⟨false, .constantCondition construct true, rfl⟩
  obtain ⟨noted, concern, hcond⟩ := hnoted cond
  obtain ⟨noted', concern', hcond'⟩ := hnoted cond'
  rw [hcond, hcond']
  exact .bind (.require rfl) fun _ _ _ => .warned (.pure trivial)

theorem bracket {enter enter' : Checker → Checker} {leave leave' : Checker → Checker → Checker}
    (hx : Transfers R x y) (henter : ∀ {c c'}, Beside c c' → Beside (enter c) (enter' c'))
    (hleave : ∀ {c c' c₁ c₁'}, Beside c c' → Beside c₁ c₁' → Beside (leave c c₁) (leave' c' c₁')) :
    Transfers R (bracket enter leave x) (bracket enter' leave' y) := by
  constructor
  intro c c₁ a c' h hc
  obtain ⟨hresult, hafter⟩ := Prod.mk.inj h
  rcases hr : x (enter c) with ⟨r, c₂⟩
  rw [hr] at hresult hafter
  subst hresult
  obtain ⟨b, c₂', hb, hab, hc₂⟩ := hx.fine hr (henter hc)
  refine ⟨b, leave' c' c₂', ?_, hab, ?_⟩
  · rw [Check.bracket, hb]
  · rw [← hafter]
    exact hleave hc hc₂

theorem inBlock (hx : Transfers R x y) : Transfers R (inBlock x) (inBlock y) :=
  hx.bracket (fun hc => ⟨congrArg Scope.child hc.scope, hc.inLoop⟩) fun hc hc₁ => ⟨hc.scope, hc₁.inLoop⟩

theorem inLoop (hx : Transfers R x y) : Transfers R (inLoop x) (inLoop y) :=
  hx.bracket (fun hc => ⟨hc.scope, rfl⟩) fun hc hc₁ => ⟨hc₁.scope, hc.inLoop⟩

theorem atStmt {token token' : Token} (hx : Transfers R x y) :
    Transfers R (atStmt token x) (atStmt token' y) :=
  hx.bracket (fun hc => ⟨hc.scope, hc.inLoop⟩) fun _ hc₁ => ⟨hc₁.scope, hc₁.inLoop⟩

theorem followed {s s' : Stmt .parsed} {rest rest' : Body .parsed} (hs : endsFlow s = endsFlow s')
    (hrest : rest.isEmpty = rest'.isEmpty) :
    Transfers (fun _ _ => True) (followed s rest) (followed s' rest') := by
  cases rest with
  | nil =>
      cases rest' with
      | nil => exact .pure trivial
      | cons => cases hrest
  | cons next rest =>
      cases rest' with
      | nil => cases hrest
      | cons next' rest' =>
          rw [Check.followed, Check.followed, ← hs]
          split
          · constructor
            intro c c₁ a c' h
            cases h
          · exact .pure trivial

theorem declare {name : String} {type : Ty} :
    Transfers (fun _ _ => True)
      (modify fun c => { c with scope := c.scope.declare name type } : Check PUnit)
      (modify fun c => { c with scope := c.scope.declare name type }) := by
  constructor
  intro c c₁ a c' h hc
  cases h
  exact ⟨⟨⟩, _, rfl, trivial, congrArg (·.declare name type) hc.scope, hc.inLoop⟩

end Transfers

end Transfer

variable {a b : Constant} {marks : Token → Token → Prop}

/-- What checking two trees comes to: if the one passes, so does the other, with the one typed constant
in place of the other. -/
def Swapped (a b : Constant) : (k : Kind) → Nat → k.In .parsed → k.In .parsed → Prop
  | .expr, n, e, e' => Transfers (Swaps Eq a.typed b.typed .expr n) (expr e) (expr e')
  | .branches, n, others, others' => ∀ first,
      Transfers (Swaps Eq a.typed b.typed .branches n) (branches first others) (branches first others')
  | .body, n, body, body' => Transfers (Swaps Eq a.typed b.typed .body n) (stmts body) (stmts body')
  | .stmt, n, s, s' => Transfers (Swaps Eq a.typed b.typed .stmt n) (stmt s) (stmt s')

/-- Exchanged programs are checked alike. They may differ in whether a variable is assigned to itself, which is
only a warning. -/
theorem swapped {k : Kind} {n : Nat} {t t' : k.In .parsed}
    (h : Swaps marks a.parsed b.parsed k n t t') : Swapped a b k n t t' := by
  have htag : ∀ {n e e'}, Swaps Eq a.typed b.typed .expr n e e' → e.tag = e'.tag :=
    fun h => h.tag_eq (a.typed_tag.trans b.typed_tag.symm)
  induction h with
  | here =>
      constructor
      intro c c₁ r c' hr hc
      rw [a.checks] at hr
      cases hr
      exact ⟨b.typed, c', b.checks c', .here, hc⟩
  | int => exact .pure .int
  | string => exact .pure .string
  | bool => exact .pure .bool
  | unit => exact .pure .unit
  | var => exact .map .lookup fun _ _ htype => htype ▸ .var
  | assign _ ih =>
      refine .bind .lookup fun type _ htype => .bind ih fun e e' he => ?_
      subst htype
      refine .bind (.require (by rw [htag he])) fun _ _ _ => .warned (.pure (.assign he))
  | unary _ ih =>
      refine .bind ih fun e e' he => .map (.lift (by rw [htag he])) fun _ _ htype => ?_
      exact htype ▸ .unary he
  | binary _ _ ihl ihr =>
      refine .bind ihl fun l l' hl => .bind ihr fun r r' hr =>
        .map (.lift (by rw [htag hl, htag hr])) fun _ _ htype => ?_
      exact htype ▸ .binary hl hr
  | block _ ih =>
      refine .map (.inBlock ih) fun body body' hbody => ?_
      rw [hbody.bodyType_eq]
      exact .block hbody
  | choice _ _ _ ihc ihb iho =>
      refine .bind ihc fun cond cond' hcond => ?_
      rw [htag hcond]
      refine .bind .condition fun _ _ _ => .bind (.inBlock ihb) fun body body' hbody => ?_
      rw [hbody.bodyType_eq]
      exact .map (iho _) fun others others' hothers => .choice hcond hbody hothers
  | loop _ _ ihc ihb =>
      refine .bind ihc fun cond cond' hcond => ?_
      rw [htag hcond]
      exact .bind .condition fun _ _ _ => .map (.inLoop (.inBlock ihb)) fun body body' hbody =>
        .loop hcond hbody
  | done =>
      intro first
      exact .bind (.require rfl) fun _ _ _ => .pure .done
  | otherwise _ ih =>
      intro first
      refine .bind (.inBlock ih) fun body body' hbody => ?_
      exact .bind (.require (by rw [hbody.bodyType_eq])) fun _ _ _ => .pure (.otherwise hbody)
  | orIf _ _ _ ihc ihb iho =>
      intro first
      refine .bind ihc fun cond cond' hcond => ?_
      rw [htag hcond]
      refine .bind .condition fun _ _ _ => .bind (.inBlock ihb) fun body body' hbody => ?_
      refine .bind (.require (by rw [hbody.bodyType_eq])) fun _ _ _ => ?_
      exact .map (iho first) fun others others' hothers => .orIf hcond hbody hothers
  | nil => exact .pure .nil
  | cons hs hrest ihs ihrest =>
      refine .bind (.atStmt ihs) fun s s' hs' => ?_
      refine .bind (.followed hs.endsFlow_eq hrest.isEmpty_eq) fun _ _ _ => ?_
      exact .map ihrest fun rest rest' hrest' => .cons hs' hrest'
  | declare _ _ ih =>
      refine .get fun c c' hc => ?_
      rw [hc.scope]
      refine .bind (.require rfl) fun _ _ _ => .bind ih fun init init' hinit => ?_
      refine .bind (.require (by rw [htag hinit])) fun _ _ _ => .get fun c c' hc => ?_
      exact .warned (.bind .declare fun _ _ _ => .pure (.declare rfl hinit))
  | write _ _ ih =>
      refine .map ih fun value value' hvalue => ?_
      rw [htag hvalue]
      exact .write rfl hvalue
  | leave =>
      refine .get fun c c' hc => ?_
      rw [hc.inLoop]
      exact .bind (.require rfl) fun _ _ _ => .pure (.leave rfl)
  | again =>
      refine .get fun c c' hc => ?_
      rw [hc.inLoop]
      exact .bind (.require rfl) fun _ _ _ => .pure (.again rfl)
  | expr _ _ ih =>
      refine .map ih fun value value' hvalue => ?_
      rw [htag hvalue]
      exact .expr rfl hvalue

end Check

/-! ### Resolving -/

namespace Resolve

open Sequence

section Transfer

variable {α β γ δ : Type} {R : α → β → Prop} {S : γ → δ → Prop} {x : Resolve α} {y : Resolve β}
  {f : α → Resolve γ} {g : β → Resolve δ}

/-- If one pass succeeds, so does another one, which hands out the same slots, with a related result. -/
structure Transfers (R : α → β → Prop) (x : Resolve α) (y : Resolve β) : Prop where
  fine : ∀ {s s₁ a}, x s = .ok (a, s₁) → ∃ b, y s = .ok (b, s₁) ∧ R a b

namespace Transfers

theorem refl (x : Resolve α) : Transfers Eq x x := ⟨fun h => ⟨_, h, rfl⟩⟩

theorem pure {a : α} {b : β} (h : R a b) : Transfers R (Pure.pure a) (Pure.pure b) := by
  constructor
  intro s s₁ a' hx
  cases hx
  exact ⟨b, rfl, h⟩

theorem bind (hx : Transfers R x y) (hf : ∀ a b, R a b → Transfers S (f a) (g b)) :
    Transfers S (x >>= f) (y >>= g) := by
  constructor
  intro s s₁ r h
  obtain ⟨a, s₂, ha, h⟩ := bind_ok.mp h
  obtain ⟨b, hb, hab⟩ := hx.fine ha
  obtain ⟨r', hr, hrr⟩ := (hf a b hab).fine h
  exact ⟨r', bind_ok.mpr ⟨b, s₂, hb, hr⟩, hrr⟩

theorem map {k : α → γ} {l : β → δ} (hx : Transfers R x y) (hk : ∀ a b, R a b → S (k a) (l b)) :
    Transfers S (x >>= fun a => Pure.pure (k a)) (y >>= fun b => Pure.pure (l b)) :=
  .bind hx fun a b hab => .pure (hk a b hab)

theorem inBlock (hx : Transfers R x y) : Transfers R (inBlock x) (inBlock y) := by
  refine .bind (.refl _) fun outer outer' houter => ?_
  subst houter
  exact .bind hx fun a b hab => .bind (.refl _) fun _ _ _ => .pure hab

end Transfers

end Transfer

variable {a b : Constant}

/-- What resolving two trees comes to: if the one is resolved, so is the other, with the one constant in
place of the other. -/
def Swapped (a b : Constant) : (k : Kind) → Nat → k.In .typed → k.In .typed → Prop
  | .expr, n, e, e' => Transfers (Swaps Eq a.resolved b.resolved .expr n) (expr e) (expr e')
  | .branches, n, others, others' =>
      Transfers (Swaps Eq a.resolved b.resolved .branches n) (branches others) (branches others')
  | .body, n, body, body' =>
      Transfers (Swaps Eq a.resolved b.resolved .body n) (stmts body) (stmts body')
  | .stmt, n, s, s' => Transfers (Swaps Eq a.resolved b.resolved .stmt n) (stmt s) (stmt s')

/-- Exchanged programs are resolved alike, with the same slots. -/
theorem swapped {k : Kind} {n : Nat} {t t' : k.In .typed} (h : Swaps Eq a.typed b.typed k n t t') :
    Swapped a b k n t t' := by
  induction h with
  | here =>
      constructor
      intro s s₁ r hr
      rw [a.resolves] at hr
      cases hr
      exact ⟨b.resolved, b.resolves s, .here⟩
  | int => exact .pure .int
  | string => exact .pure .string
  | bool => exact .pure .bool
  | unit => exact .pure .unit
  | var => exact .map (.refl _) fun _ _ hslot => hslot ▸ .var
  | assign _ ih =>
      exact .bind ih fun value value' hvalue => .map (.refl _) fun _ _ hslot => hslot ▸ .assign hvalue
  | unary _ ih => exact .map ih fun e e' he => .unary he
  | binary _ _ ihl ihr => exact .bind ihl fun l l' hl => .map ihr fun r r' hr => .binary hl hr
  | block _ ih => exact .map (.inBlock ih) fun body body' hbody => .block hbody
  | choice _ _ _ ihc ihb iho =>
      exact .bind ihc fun cond cond' hcond => .bind (.inBlock ihb) fun body body' hbody =>
        .map iho fun others others' hothers => .choice hcond hbody hothers
  | loop _ _ ihc ihb =>
      exact .bind ihc fun cond cond' hcond => .map (.inBlock ihb) fun body body' hbody =>
        .loop hcond hbody
  | done => exact .pure .done
  | otherwise _ ih => exact .map (.inBlock ih) fun body body' hbody => .otherwise hbody
  | orIf _ _ _ ihc ihb iho =>
      exact .bind ihc fun cond cond' hcond => .bind (.inBlock ihb) fun body body' hbody =>
        .map iho fun others others' hothers => .orIf hcond hbody hothers
  | nil => exact .pure .nil
  | cons _ _ ihs ihrest => exact .bind ihs fun s s' hs => .map ihrest fun rest rest' hrest => .cons hs hrest
  | declare hmark _ ih =>
      exact .bind ih fun init init' hinit => .map (.refl _) fun _ _ hslot => hslot ▸ .declare hmark hinit
  | write hmark _ ih => exact .map ih fun value value' hvalue => .write hmark hvalue
  | leave hmark => exact .pure (.leave hmark)
  | again hmark => exact .pure (.again hmark)
  | expr hmark _ ih => exact .map ih fun value value' hvalue => .expr hmark hvalue

end Resolve

/-! ### Emitting -/

/-- Instructions that are the same but for a number of places, where the ones have `old` and the others
have `new`. -/
inductive Patches (old new : List Instr) : Nat → List Instr → List Instr → Prop where
  | nil : Patches old new 0 [] []
  | keep {n xs ys} (i : Instr) : Patches old new n xs ys → Patches old new n (xs ++ [i]) (ys ++ [i])
  | patch {n xs ys} : Patches old new n xs ys → Patches old new (n + 1) (xs ++ old) (ys ++ new)

namespace Patches

variable {old new xs ys : List Instr} {n : Nat}

theorem length_le (h : Patches old new n xs ys) (hlength : new.length ≤ old.length) :
    ys.length ≤ xs.length := by
  induction h with
  | nil => exact Nat.le_refl 0
  | keep i _ ih | patch _ ih =>
      rw [List.length_append, List.length_append]
      omega

theorem eq_of_zero (h : Patches old new n xs ys) (hn : n = 0) : xs = ys := by
  induction h with
  | nil => rfl
  | keep i _ ih => rw [ih hn]
  | patch => cases hn

theorem exists_of_one (h : Patches old new n xs ys) (hn : n = 1) :
    ∃ front back, xs = front ++ old ++ back ∧ ys = front ++ new ++ back := by
  induction h with
  | nil => cases hn
  | keep i _ ih =>
      obtain ⟨front, back, rfl, rfl⟩ := ih hn
      exact ⟨front, back ++ [i], by simp, by simp⟩
  | @patch _ xs ys h =>
      rw [h.eq_of_zero (Nat.succ.inj hn)]
      exact ⟨ys, [], by simp, by simp⟩

end Patches

namespace Emit

open Sequence

/-- Contexts that are the same but for the instructions, which are the same but for a number of
places. -/
structure Patched (old new : List Instr) (n : Nat) (c c' : Context) : Prop where
  instrs : Patches old new n c.instrs c'.instrs
  strings : c'.strings = c.strings
  labels : c'.labels = c.labels
  depth : c'.depth = c.depth

section Transfer

variable {α β : Type} {old new : List Instr} {n m : Nat} {x y : Emit α} {f g : α → Emit β}

/-- If one step succeeds, so does another one, with the same result; it emits the same but for a number
of places. -/
structure Transfers (old new : List Instr) (n : Nat) (x y : Emit α) : Prop where
  fine : ∀ {m c c₁ a c'}, x c = .ok (a, c₁) → Patched old new m c c' →
    ∃ c₁', y c' = .ok (a, c₁') ∧ Patched old new (m + n) c₁ c₁'

namespace Transfers

theorem bind (hx : Transfers old new n x y) (hf : ∀ a, Transfers old new m (f a) (g a)) :
    Transfers old new (n + m) (x >>= f) (y >>= g) := by
  constructor
  intro k c c₁ r c' h hc
  obtain ⟨a, c₂, ha, h⟩ := bind_ok.mp h
  obtain ⟨c₂', hb, hc₂⟩ := hx.fine ha hc
  obtain ⟨c₁', hr, hc₁⟩ := (hf a).fine h hc₂
  rw [Nat.add_assoc] at hc₁
  exact ⟨c₁', bind_ok.mpr ⟨a, c₂', hb, hr⟩, hc₁⟩

/-- A step that emits the same comes first. -/
theorem after (hx : Transfers old new 0 x y) (hf : ∀ a, Transfers old new n (f a) (g a)) :
    Transfers old new n (x >>= f) (y >>= g) := by
  have h := hx.bind hf
  rwa [Nat.zero_add] at h

/-- A step that emits the same comes last. -/
theorem before (hx : Transfers old new n x y) (hf : ∀ a, Transfers old new 0 (f a) (g a)) :
    Transfers old new n (x >>= f) (y >>= g) := hx.bind hf

theorem pure {a : α} : Transfers old new 0 (Pure.pure a : Emit α) (Pure.pure a) := by
  constructor
  intro m c c₁ a' c' h hc
  cases h
  exact ⟨c', rfl, hc⟩

theorem throw {e e' : EmitError} : Transfers old new 0 (throw e : Emit α) (MonadExcept.throw e') := by
  constructor
  intro m c c₁ a' c' h
  cases h

theorem emit {op : Op} {arg : Int64} : Transfers old new 0 (emit op arg) (emit op arg) := by
  constructor
  intro m c c₁ a c' h hc
  cases h
  refine ⟨_, rfl, ?_, hc.strings, hc.labels, ?_⟩
  · have hinstrs : ∀ c : Context, (c.emit op arg).instrs = c.instrs ++ [Instr.of op arg] := by
      intro c
      simp [Context.instrs, Context.emit]
    have h := hc.instrs.keep (Instr.of op arg)
    rwa [← hinstrs, ← hinstrs] at h
  · exact congrArg (· + op.pushes - op.pops) hc.depth

theorem emitAt {op : Op} {index : Nat} : Transfers old new 0 (emitAt op index) (emitAt op index) := emit

theorem newLabel : Transfers old new 0 newLabel newLabel := by
  constructor
  intro m c c₁ a c' h hc
  cases h
  refine ⟨{ c' with labels := c'.labels + 1 }, ?_, hc.instrs, hc.strings, congrArg (· + 1) hc.labels,
    hc.depth⟩
  rw [← hc.labels]
  rfl

theorem setDepth {depth : Nat} : Transfers old new 0 (setDepth depth) (setDepth depth) := by
  constructor
  intro m c c₁ a c' h hc
  cases h
  exact ⟨_, rfl, hc.instrs, hc.strings, hc.labels, rfl⟩

theorem depth : Transfers old new 0 depth depth := by
  constructor
  intro m c c₁ a c' h hc
  cases h
  refine ⟨c', ?_, hc⟩
  rw [← hc.depth]
  rfl

/-- The places of the two need not be the same. -/
theorem place {f g : Nat → Emit α} (hf : ∀ i j, Transfers old new n (f i) (g j)) :
    Transfers old new n (place >>= f) (place >>= g) := by
  constructor
  intro m c c₁ a c' h hc
  rw [place_bind] at h ⊢
  exact (hf _ _).fine h hc

theorem closeLoop {frame : LoopFrame} {first first' : Nat} :
    Transfers old new 0 (closeLoop frame first) (closeLoop frame first') := by
  constructor
  intro m c c₁ a c' h hc
  cases h
  exact ⟨_, rfl, hc.instrs, hc.strings, hc.labels, hc.depth⟩

theorem constant {value : String} : Transfers old new 0 (constant value) (constant value) := by
  constructor
  intro m c c₁ a c' h hc
  simp only [Emit.constant, modifyGet, MonadStateOf.modifyGet, StateT.modifyGet, hc.strings] at h ⊢
  cases hindex : c.strings.idxOf? value with
  | some index =>
      rw [hindex] at h
      cases h
      exact ⟨_, rfl, hc⟩
  | none =>
      rw [hindex] at h
      cases h
      exact ⟨_, rfl, hc.instrs, rfl, hc.labels, hc.depth⟩

theorem drop (n : Nat) : Transfers old new 0 (drop n) (drop n) := by
  induction n with
  | zero => exact .pure
  | succ n ih => exact .after .emit fun _ => ih

theorem jumpOut {frame : LoopFrame} {label : Nat} :
    Transfers old new 0 (jumpOut frame label) (jumpOut frame label) :=
  .after .depth fun _ => .after (.drop _) fun _ => .after .emitAt fun _ => .setDepth

end Transfers

end Transfer

variable {a b : Constant}

/-- What the code of two trees comes to: it is the same, but for the code of the one constant in place of
that of the other. -/
def Swapped (a b : Constant) : (k : Kind) → Nat → k.In .resolved → k.In .resolved → Prop
  | .expr, n, e, e' => ∀ frame, Transfers a.code b.code n (expr frame e) (expr frame e')
  | .branches, n, others, others' => ∀ frame base finish,
      Transfers a.code b.code n (branches frame base finish others) (branches frame base finish others')
  | .body, n, stmts, stmts' => ∀ frame, Transfers a.code b.code n (body frame stmts) (body frame stmts')
  | .stmt, n, s, s' => ∀ frame, Transfers a.code b.code n (stmt frame s) (stmt frame s')

/-- Exchanged programs are emitted alike, even behind code that is longer in one of the two. -/
theorem swapped {k : Kind} {n : Nat} {t t' : k.In .resolved}
    (h : Swaps Eq a.resolved b.resolved k n t t') : Swapped a b k n t t' := by
  induction h with
  | here =>
      intro frame
      constructor
      intro m c c₁ u c' h hc
      obtain ⟨d, hd, hinstrs, hstrings, hlabels, hdepth⟩ := a.emits frame c
      obtain ⟨d', hd', hinstrs', hstrings', hlabels', hdepth'⟩ := b.emits frame c'
      rw [hd] at h
      cases h
      refine ⟨d', hd', ?_, ?_, ?_, ?_⟩
      · rw [hinstrs, hinstrs']
        exact hc.instrs.patch
      · rw [hstrings, hstrings', hc.strings]
      · rw [hlabels, hlabels', hc.labels]
      · rw [hdepth, hdepth', hc.depth]
  | int => exact fun _ => .emit
  | string => exact fun _ => .after .constant fun _ => .emitAt
  | bool => exact fun _ => .emit
  | unit => exact fun _ => .emit
  | var => exact fun _ => .emitAt
  | assign _ ih => exact fun frame => .before (ih frame) fun _ => .emitAt
  | unary _ ih => exact fun frame => .before (ih frame) fun _ => .emit
  | binary hl _ ihl ihr =>
      intro frame
      refine .bind (ihl frame) fun _ => .before (ihr frame) fun _ => ?_
      rw [hl.tag_eq (a.resolved_tag.trans b.resolved_tag.symm)]
      exact .emit
  | block _ ih => exact ih
  | choice _ _ _ ihc ihb iho =>
      intro frame
      rw [Nat.add_assoc]
      exact .after .depth fun base => .after .newLabel fun finish => .after .newLabel fun next =>
        .bind (ihc frame) fun _ => .after .emitAt fun _ =>
        .bind (ihb frame) fun _ => .after .emitAt fun _ => .after .emitAt fun _ => .after .setDepth fun _ =>
        .before (iho frame base finish) fun _ => .after .emitAt fun _ => .setDepth
  | loop _ _ ihc ihb =>
      intro frame
      exact .after .newLabel fun start => .after .newLabel fun finish => .after .depth fun base =>
        .place fun first first' => .after .emitAt fun _ =>
        .bind (ihc frame) fun _ => .after .emitAt fun _ =>
        .before (ihb _) fun _ => .after .emit fun _ => .after .emitAt fun _ => .after .closeLoop fun _ =>
        .after .emitAt fun _ => .after .setDepth fun _ => .emit
  | done => exact fun _ _ _ => .emit
  | otherwise _ ih => exact fun frame _ _ => ih frame
  | orIf _ _ _ ihc ihb iho =>
      intro frame base finish
      rw [Nat.add_assoc]
      exact .after .newLabel fun next => .bind (ihc frame) fun _ => .after .emitAt fun _ =>
        .bind (ihb frame) fun _ => .after .emitAt fun _ => .after .emitAt fun _ => .after .setDepth fun _ =>
        iho frame base finish
  | nil => exact fun _ => .emit
  | cons _ hrest ihs ihrest =>
      intro frame
      refine .bind (ihs frame) fun _ => ?_
      cases hrest with
      | nil => exact .pure
      | cons => exact .after .emit fun _ => ihrest frame
  | declare _ _ ih =>
      exact fun frame => .before (ih frame) fun _ => .after .emitAt fun _ => .emit
  | write _ _ ih =>
      exact fun frame => .before (ih frame) fun _ => .after .emit fun _ => .emit
  | leave =>
      intro frame
      cases frame with
      | none => exact .throw
      | some f => exact .jumpOut
  | again =>
      intro frame
      cases frame with
      | none => exact .throw
      | some f => exact .jumpOut
  | expr _ _ ih => exact ih

theorem program_swapped {n : Nat} {body body' : Body .resolved}
    (h : Swaps Eq a.resolved b.resolved .body n body body') :
    Transfers a.code b.code n (program body) (program body') := by
  induction body generalizing n body' with
  | nil =>
      cases h with
      | nil => exact .pure
  | cons s rest ih =>
      cases h with
      | cons hs hrest => exact .bind (swapped hs none) fun _ => .after .emit fun _ => ih hrest

end Emit

/-- A program is generated if its code leaves nothing on the stack and is not too long. -/
theorem generate_eq_ok_iff {body : Body .resolved} {slots : Nat} {p : Program} :
    generate body slots = .ok p ↔
      ∃ c, Emit.program body {} = .ok ((), c) ∧ c.depth = 0 ∧ c.code.size ≤ tableLimit ∧
        p = {
          code := section? (c.code.map (·.instr))
          strings := section? c.strings
          labelCount := Int64.ofNat c.labels
          slotCount := Int64.ofNat slots } := by
  rw [generate, StateT.run]
  cases hc : Emit.program body {} with
  | error e => simp [bind, Except.bind]
  | ok r =>
      obtain ⟨⟨⟩, c⟩ := r
      by_cases hdepth : c.depth = 0
      · by_cases hlong : tableLimit < c.code.size
        · simp [bind, Except.bind, hdepth, hlong, throw, throwThe, MonadExceptOf.throw]
        · simp [bind, Except.bind, hdepth, hlong, Int.not_lt.mp hlong, eq_comm, pure, Except.pure]
      · simp [bind, Except.bind, hdepth, throw, throwThe, MonadExceptOf.throw]

/-- Programs with the same tables, whose instructions are the same but for a number of places. -/
structure Program.Patched (old new : List Instr) (n : Nat) (p p' : Program) : Prop where
  instrs : Patches old new n p.instrs.toList p'.instrs.toList
  strings : p'.strings = p.strings
  labels : p'.labelCount = p.labelCount
  slots : p'.slotCount = p.slotCount

theorem Program.Patched.withHash {old new : List Instr} {n : Nat} {p p' : Program}
    (h : p.Patched old new n p') (hash : UInt64) : p.Patched old new n { p' with sourceHash := hash } :=
  ⟨h.instrs, h.strings, h.labels, h.slots⟩

section Stages

variable {a b : Constant} {n : Nat} {marks : Token → Token → Prop}

/-- If a program is generated, so is the one with the other constant, if that has no longer code. -/
theorem generate_swapped {body body' : Body .resolved} {slots : Nat} {p : Program}
    (h : Swaps Eq a.resolved b.resolved .body n body body') (hlength : b.code.length ≤ a.code.length)
    (hp : generate body slots = .ok p) :
    ∃ p', generate body' slots = .ok p' ∧ p.Patched a.code b.code n p' := by
  obtain ⟨c, hemit, hdepth, hsize, rfl⟩ := generate_eq_ok_iff.mp hp
  obtain ⟨c', hemit', hc⟩ := (Emit.program_swapped h).fine hemit ⟨.nil, rfl, rfl, rfl⟩
  rw [Nat.zero_add] at hc
  have hsizes : c'.code.size ≤ c.code.size := by
    have hle := hc.instrs.length_le hlength
    simpa [Context.instrs] using hle
  refine ⟨_, generate_eq_ok_iff.mpr ⟨c', hemit', hc.depth.trans hdepth, ?_, rfl⟩, ?_, ?_, ?_, rfl⟩
  · omega
  · have hinstrs := hc.instrs
    simpa [Context.instrs, Program.instrs, getD_section?] using hinstrs
  · exact congrArg section? hc.strings
  · exact congrArg Int64.ofNat hc.labels

theorem resolve_swapped {program program' : Body .typed} {body : Body .resolved} {slots : Nat}
    (h : Swaps Eq a.typed b.typed .body n program program') (hres : resolve program = .ok (body, slots)) :
    ∃ body', resolve program' = .ok (body', slots) ∧ Swaps Eq a.resolved b.resolved .body n body body' := by
  rw [resolve, StateT.run] at hres
  cases hrun : Resolve.stmts program {} with
  | error e =>
      rw [hrun] at hres
      cases hres
  | ok r =>
      rw [hrun] at hres
      cases hres
      obtain ⟨body', hbody', hswaps⟩ := (Resolve.swapped h).fine hrun
      refine ⟨body', ?_, hswaps⟩
      rw [resolve, StateT.run, hbody']
      rfl

theorem Checker.check_swapped {tree tree' : Body .parsed} {program : Body .typed} {checker : Checker}
    (h : Swaps marks a.parsed b.parsed .body n tree tree')
    (hcheck : ({} : Checker).check tree = (.ok program, checker)) :
    ∃ program' checker', ({} : Checker).check tree' = (.ok program', checker') ∧
      Swaps Eq a.typed b.typed .body n program program' := by
  obtain ⟨program', checker', hcheck', hswaps, -⟩ := (Check.swapped h).fine hcheck ⟨rfl, rfl⟩
  exact ⟨program', checker', hcheck', hswaps⟩

namespace Compilation

/-- Tokens are compiled if they pass all four stages. -/
theorem ofTokens_eq_ok_iff {tokens : List Token} {p : Program} :
    ofTokens tokens = .ok p ↔
      ∃ tree program checker body slots, parse tokens = .ok tree ∧
        ({} : Checker).check tree = (.ok program, checker) ∧ resolve program = .ok (body, slots) ∧
        generate body slots = .ok p := by
  have hbind : ∀ {α β ε : Type} {w : ε → CompileError} {x : Except ε α} {f : α → Except CompileError β}
      {r : β}, x.mapError w >>= f = .ok r ↔ ∃ a, x = .ok a ∧ f a = .ok r := by
    intro α β ε w x f r
    cases x with
    | error e => simp [Except.mapError, bind, Except.bind]
    | ok a => simp [Except.mapError, bind, Except.bind]
  rw [ofTokens]
  constructor
  · intro h
    obtain ⟨tree, hparse, h⟩ := hbind.mp h
    obtain ⟨program, hcheck, h⟩ := hbind.mp h
    obtain ⟨⟨body, slots⟩, hres, h⟩ := hbind.mp h
    exact ⟨tree, program, _, body, slots, hparse, Prod.ext hcheck rfl, hres, mapError_eq_ok h⟩
  · rintro ⟨tree, program, checker, body, slots, hparse, hcheck, hres, hgen⟩
    refine hbind.mpr ⟨tree, hparse, hbind.mpr ⟨program, congrArg Prod.fst hcheck, ?_⟩⟩
    exact hbind.mpr ⟨(body, slots), hres, congrArg (Except.mapError CompileError.emit) hgen⟩

/-- Tokens whose trees are the same but for some constants have the same code but for those. -/
theorem ofTokens_swapped {tokens tokens' : List Token} {tree tree' : Body .parsed} {p : Program}
    (hparse : parse tokens = .ok tree) (hparse' : parse tokens' = .ok tree')
    (h : Swaps marks a.parsed b.parsed .body n tree tree') (hlength : b.code.length ≤ a.code.length)
    (hp : ofTokens tokens = .ok p) :
    ∃ p', ofTokens tokens' = .ok p' ∧ p.Patched a.code b.code n p' := by
  obtain ⟨_, program, checker, body, slots, htree, hcheck, hres, hgen⟩ := ofTokens_eq_ok_iff.mp hp
  obtain rfl := Except.ok.inj (hparse.symm.trans htree)
  obtain ⟨program', checker', hcheck', hprogram⟩ := Checker.check_swapped h hcheck
  obtain ⟨body', hres', hbody⟩ := resolve_swapped hprogram hres
  obtain ⟨p', hgen', hpatched⟩ := generate_swapped hbody hlength hgen
  exact ⟨p', ofTokens_eq_ok_iff.mpr
    ⟨tree', program', checker', body', slots, hparse', hcheck', hres', hgen'⟩, hpatched⟩

end Compilation

end Stages

end BlockLang

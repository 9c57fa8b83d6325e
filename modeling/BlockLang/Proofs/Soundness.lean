import BlockLang.Proofs.Meaning
import BlockLang.Proofs.Typing

/-! Well-typed trees make sense. The evaluation of a well-typed tree never gets stuck, its value has
the type of its tag, a `break` or `continue` ends it only in the body of a loop, and the variables
that it leaves behind have the types that they had. -/

namespace BlockLang

namespace Storage

/-- The names and types of variables. -/
def types (vars : List (String × Datum)) : List (String × Ty) :=
  vars.map fun v => (v.1, v.2.type)

theorem lookup_types (vars : List (String × Datum)) (name : String) :
    (types vars).lookup name = (vars.lookup name).map Datum.type := by
  induction vars with
  | nil => rfl
  | cons v vars ih =>
      show ((v.1, v.2.type) :: types vars).lookup name = _
      rw [List.lookup_cons, List.lookup_cons]
      cases name == v.1 with
      | true => rfl
      | false => exact ih

/-- Assigning a value of a variable's type keeps the types of all variables. -/
theorem types_update? {name : String} {d : Datum} : ∀ {vars : List (String × Datum)},
    (types vars).lookup name = some d.type →
      ∃ vars', update? vars name d = some vars' ∧ types vars' = types vars
  | [], h => by cases h
  | (other, old) :: vars, h => by
      rw [update?]
      change ((other, old.type) :: types vars).lookup name = _ at h
      rw [List.lookup_cons] at h
      cases hname : name == other with
      | true =>
          rw [hname] at h
          refine ⟨_, rfl, ?_⟩
          simp only [types, List.map_cons, Option.some.inj h]
      | false =>
          rw [hname] at h
          obtain ⟨vars', hset, htypes⟩ := types_update? h
          exact ⟨(other, old) :: vars', by simp [hset], congrArg ((other, old.type) :: ·) htypes⟩

theorem types_close {outer inner : List (String × Datum)} (h : types outer <:+ types inner) :
    types (named.close outer inner) = types outer := by
  have hlen : ∀ vars : List (String × Datum), vars.length = (types vars).length := fun vars => by
    rw [types, List.length_map]
  show (inner.drop (inner.length - outer.length)).map _ = _
  rw [List.map_drop, hlen inner, hlen outer]
  exact (List.suffix_iff_eq_drop.mp h).symm

end Storage

theorem UnaryOp.Typed.apply {op : UnaryOp} {operand t : Ty} (h : op.Typed operand t) {d : Datum}
    (hd : d.type = operand) : ∃ r, op.apply d = some r ∧ r.type = t := by
  subst hd
  cases op with
  | negate =>
      cases d with
      | int n => exact ⟨_, rfl, h.2.symm⟩
      | _ => cases h.1
  | not =>
      cases d with
      | bool b => exact ⟨_, rfl, h.2.symm⟩
      | _ => cases h.1
  | stringify => exact ⟨.string d.stringified, by cases d <;> rfl, h.symm⟩

namespace BinaryOp

/-- An operation succeeds with a value of a type, or fails at run time. -/
def Yields (t : Ty) (r : Option (Except RuntimeCause Datum)) : Prop :=
  ∃ e, r = some e ∧ ∀ d, e = .ok d → d.type = t

theorem yields_ok {t : Ty} {d : Datum} (h : d.type = t) : Yields t (some (.ok d)) :=
  ⟨_, rfl, fun _ heq => by cases heq; exact h⟩

theorem yields_int_of_ne_zero {b : Int} {cause : RuntimeCause} {n : Int64} :
    Yields .int (some (if b = 0 then .error cause else .ok (.int n))) := by
  refine ⟨_, rfl, fun d heq => ?_⟩
  by_cases hb : b = 0
  · rw [if_pos hb] at heq
    cases heq
  · rw [if_neg hb] at heq
    cases heq
    rfl

theorem Typed.same {op : BinaryOp} {left right t : Ty} (h : op.Typed left right t) :
    left = right := by
  cases op with
  | eq | neq | add => exact h.1
  | _ => exact h.1.trans h.2.1.symm

variable {op : BinaryOp} {t : Ty}

theorem Typed.onInts (h : op.Typed .int .int t) (a b : Int) : Yields t (op.onInts a b) := by
  cases op with
  | or | and => cases h.1
  | eq | neq => exact yields_ok h.2.symm
  | div | rem =>
      obtain rfl : t = .int := h.2.2
      exact yields_int_of_ne_zero
  | _ => exact yields_ok h.2.2.symm

theorem Typed.onBools (h : op.Typed .bool .bool t) (a b : Bool) : Yields t (op.onBools a b) := by
  cases op with
  | or | and => exact yields_ok h.2.2.symm
  | eq | neq => exact yields_ok h.2.symm
  | add => rcases h.2.1 with h | h <;> cases h
  | _ => cases h.1

theorem Typed.onStrings (h : op.Typed .string .string t) (a b : String) :
    Yields t (op.onStrings a b) := by
  cases op with
  | eq | neq => exact yields_ok h.2.symm
  | add => exact yields_ok h.2.2.symm
  | _ => cases h.1

theorem Typed.onUnits (h : op.Typed .unit .unit t) : Yields t op.onUnits := by
  cases op with
  | eq | neq => exact yields_ok h.2.symm
  | add => rcases h.2.1 with h | h <;> cases h
  | _ => cases h.1

/-- An operation on operands of the right types has a result of the right type. -/
theorem Typed.apply {left right : Ty} (h : op.Typed left right t) {a b : Datum}
    (ha : a.type = left) (hb : b.type = right) : Yields t (op.apply left a b) := by
  obtain rfl := h.same
  subst ha
  cases a with
  | unit =>
      cases b with
      | unit => exact h.onUnits
      | _ => cases hb
  | int a =>
      cases b with
      | int b => exact h.onInts a.toInt b.toInt
      | _ => cases hb
  | bool a =>
      cases b with
      | bool b => exact h.onBools a b
      | _ => cases hb
  | string a =>
      cases b with
      | string b => exact h.onStrings a b
      | _ => cases hb

end BinaryOp

namespace Eval

open Storage Sequence

/-- Where an evaluation may land: with a value and variables that fit, or stopped for a reason that
is possible at its place, with variables that fit. -/
def Lands {α : Type} (inLoop : Bool) (fits : α → List (String × Ty) → Prop)
    (stopped : List (String × Ty) → Prop) : Except Stop α × World named.Vars → Prop
  | (.ok a, w) => fits a (types w.vars)
  | (.error why, w) =>
    why ≠ .stuck ∧ (why = .leave ∨ why = .again → inLoop) ∧ stopped (types w.vars)

section Rules

variable {α β : Type} {inLoop : Bool} {x : Eval named.Vars α} {w : World named.Vars}
  {fits : α → List (String × Ty) → Prop} {stopped : List (String × Ty) → Prop}
  {vars : List (String × Ty)}

theorem Lands.bind {f : α → Eval named.Vars β} {fits' : β → List (String × Ty) → Prop}
    (hx : Lands inLoop fits stopped (x w))
    (hf : ∀ a w', fits a (types w'.vars) → Lands inLoop fits' stopped (f a w')) :
    Lands inLoop fits' stopped ((x >>= f) w) := by
  rw [bind_apply]
  rcases hr : x w with ⟨r, w'⟩
  rw [hr] at hx
  cases r with
  | ok a => exact hf a w' hx
  | error why => exact hx

theorem Lands.mono {fits' : α → List (String × Ty) → Prop} {stopped' : List (String × Ty) → Prop}
    {r : Except Stop α × World named.Vars} (hr : Lands inLoop fits stopped r)
    (hfits : ∀ a vs, fits a vs → fits' a vs) (hstopped : ∀ vs, stopped vs → stopped' vs) :
    Lands inLoop fits' stopped' r := by
  rcases r with ⟨r, w⟩
  cases r with
  | ok a => exact hfits a _ hr
  | error why => exact ⟨hr.1, hr.2.1, hstopped _ hr.2.2⟩

theorem Lands.truth {d : Datum} (hd : d.type = .bool) (hw : types w.vars = vars) :
    Lands inLoop (fun _ vs => vs = vars) stopped (truth d w) := by
  cases d with
  | bool b => exact hw
  | _ => cases hd

theorem Lands.inBlock {P : α → Prop} {scope : Scope} (hw : types w.vars = scope.vars)
    (hx : Lands inLoop (fun a vs => P a ∧ scope.child.vars <:+ vs) (scope.child.vars <:+ ·) (x w)) :
    Lands inLoop (fun a vs => P a ∧ vs = scope.vars) (· = scope.vars) (inBlock named x w) := by
  have hclose : ∀ inner, scope.vars <:+ types inner →
      types (named.close w.vars inner) = scope.vars := fun inner h =>
    (types_close (hw ▸ h)).trans hw
  show Lands _ _ _ ((x w).1, _)
  rcases hr : x w with ⟨r, w'⟩
  rw [hr] at hx
  cases r with
  | ok a => exact ⟨hx.1, hclose _ hx.2⟩
  | error why => exact ⟨hx.1, hx.2.1, hclose _ hx.2.2⟩

/-- In the body of a loop a `break` or `continue` is possible, around it only where it was. -/
theorem Lands.attempt {body : Eval named.Vars Datum} {P : Datum → Prop}
    (hx : Lands true (fun d vs => P d ∧ vs = vars) (· = vars) (body w)) :
    Lands inLoop (fun _ vs => vs = vars) (· = vars) (attempt body w) := by
  rw [Eval.attempt]
  rcases hr : body w with ⟨r, w'⟩
  rw [hr] at hx
  cases r with
  | ok a => exact hx.2
  | error why =>
      cases why with
      | leave | again => exact hx.2.2
      | stuck => exact absurd rfl hx.1
      | failed cause => exact ⟨nofun, nofun, hx.2.2⟩
      | outOfRounds => exact ⟨nofun, nofun, hx.2.2⟩

theorem Lands.iterate {round : Eval named.Vars Bool}
    (hround : ∀ w, types w.vars = vars →
      Lands inLoop (fun _ vs => vs = vars) (· = vars) (round w)) :
    ∀ (n : Nat) {w : World named.Vars}, types w.vars = vars →
      Lands inLoop (fun d vs => d.type = .unit ∧ vs = vars) (· = vars) (iterate round n w)
  | 0, w, hw => ⟨nofun, nofun, hw⟩
  | n + 1, w, hw => by
      rw [Eval.iterate]
      refine (hround w hw).bind fun goesOn w' hw' => ?_
      cases goesOn with
      | true => exact Lands.iterate hround n hw'
      | false => exact ⟨rfl, hw'⟩

end Rules

theorem bodyType_cons {s : Stmt .typed} {rest : Body .typed} (h : rest ≠ []) :
    Check.bodyType (s :: rest) = Check.bodyType rest := by
  rw [Check.bodyType, Check.bodyType, List.getLast?_cons]
  cases rest with
  | nil => exact absurd rfl h
  | cons s' rest => rw [List.getLast?_cons]; rfl

theorem suffix_after (scope : Scope) (s : Stmt .typed) : scope.vars <:+ (scope.after s).vars := by
  cases s with
  | declare type name init m => exact List.suffix_cons _ _
  | _ => exact List.suffix_refl _

section Trees

variable (rounds : Nat)

mutual

/-- A well-typed expression is never stuck: it has a value of its type, or leaves a loop that is there, or fails at
run time. -/
theorem expr_lands : ∀ (e : Expr .typed) {scope : Scope} {inLoop : Bool} {w : World named.Vars},
    e.WellTyped scope inLoop → types w.vars = scope.vars →
      Lands inLoop (fun d vs => d.type = e.tag ∧ vs = scope.vars) (· = scope.vars)
        (expr named rounds e w)
  | .int _ _, _, _, _, h, hw | .string _ _, _, _, _, h, hw | .bool _ _, _, _, _, h, hw
  | .unit _, _, _, _, h, hw => ⟨h.symm, hw⟩
  | .var name t, scope, inLoop, w, h, hw => by
      have hl : (types w.vars).lookup name = some t := by
        rw [hw]
        exact h
      obtain ⟨d, hd, htype⟩ := Option.map_eq_some_iff.mp ((lookup_types w.vars name).symm.trans hl)
      show Lands _ _ _ (need (w.vars.lookup name) w)
      rw [hd]
      exact ⟨htype, hw⟩
  | .assign name value t, scope, inLoop, w, h, hw => by
      obtain ⟨hv, htag, hname⟩ := h
      rw [expr]
      refine (expr_lands value hv hw).bind fun d w' hd => ?_
      obtain ⟨htype, hw'⟩ := hd
      have hl : (types w'.vars).lookup name = some d.type := by
        rw [hw', htype, htag]
        exact hname
      obtain ⟨vars', hset, htypes⟩ := types_update? hl
      have hchange : change (named.set? · name d) w' = (.ok (), { w' with vars := vars' }) := by
        rw [change, show named.set? w'.vars name d = some vars' from hset]
      rw [bind_apply, hchange]
      exact ⟨htype.trans htag, htypes.trans hw'⟩
  | .unary op operand t, scope, inLoop, w, h, hw => by
      obtain ⟨ho, hop⟩ := h
      rw [expr]
      refine (expr_lands operand ho hw).bind fun d w' hd => ?_
      obtain ⟨r, hr, htype⟩ := hop.apply hd.1
      rw [hr]
      exact ⟨htype, hd.2⟩
  | .binary op left right t, scope, inLoop, w, h, hw => by
      obtain ⟨hl, hr, hop⟩ := h
      rw [expr]
      refine (expr_lands left hl hw).bind fun a w₁ ha => ?_
      refine (expr_lands right hr ha.2).bind fun b w₂ hb => ?_
      obtain ⟨e, he, htype⟩ := hop.apply ha.1 hb.1
      rw [he]
      cases e with
      | ok d => exact ⟨htype d rfl, hb.2⟩
      | error cause => exact ⟨nofun, nofun, hb.2⟩
  | .block body t, scope, inLoop, w, h, hw => by
      obtain ⟨hb, rfl⟩ := h
      rw [expr]
      exact Lands.inBlock hw (stmts_lands body hb hw)
  | .choice cond body others t, scope, inLoop, w, h, hw => by
      obtain ⟨hc, hbool, hb, rfl, ho⟩ := h
      rw [expr]
      refine (expr_lands cond hc hw).bind fun d w₁ hd => ?_
      refine (Lands.truth (hd.1.trans hbool) hd.2).bind fun b w₂ hw₂ => ?_
      cases b with
      | true => exact Lands.inBlock hw₂ (stmts_lands body hb hw₂)
      | false => exact branches_lands others ho hw₂
  | .loop cond body t, scope, inLoop, w, h, hw => by
      obtain ⟨hc, hbool, hb, rfl⟩ := h
      rw [expr]
      refine Lands.iterate (fun w hw => ?_) rounds hw
      refine (expr_lands cond hc hw).bind fun d w₁ hd => ?_
      refine (Lands.truth (hd.1.trans hbool) hd.2).bind fun b w₂ hw₂ => ?_
      cases b with
      | true => exact Lands.attempt (Lands.inBlock hw₂ (stmts_lands body hb hw₂))
      | false => exact hw₂

theorem branches_lands : ∀ (b : Branches .typed) {scope : Scope} {inLoop : Bool} {t : Ty}
    {w : World named.Vars}, b.WellTyped scope inLoop t → types w.vars = scope.vars →
      Lands inLoop (fun d vs => d.type = t ∧ vs = scope.vars) (· = scope.vars)
        (branches named rounds b w)
  | .done, scope, inLoop, t, w, h, hw => ⟨h.symm, hw⟩
  | .otherwise body, scope, inLoop, t, w, h, hw => by
      obtain ⟨hb, rfl⟩ := h
      rw [branches]
      exact Lands.inBlock hw (stmts_lands body hb hw)
  | .orIf cond body others, scope, inLoop, t, w, h, hw => by
      obtain ⟨hc, hbool, hb, rfl, ho⟩ := h
      rw [branches]
      refine (expr_lands cond hc hw).bind fun d w₁ hd => ?_
      refine (Lands.truth (hd.1.trans hbool) hd.2).bind fun b w₂ hw₂ => ?_
      cases b with
      | true => exact Lands.inBlock hw₂ (stmts_lands body hb hw₂)
      | false => exact branches_lands others ho hw₂

/-- A well-typed body is never stuck, and the variables around it keep their types. -/
theorem stmts_lands : ∀ (body : List (Stmt .typed)) {scope : Scope} {inLoop : Bool}
    {w : World named.Vars}, Body.WellTyped scope inLoop body → types w.vars = scope.vars →
      Lands inLoop (fun d vs => d.type = Check.bodyType body ∧ scope.vars <:+ vs)
        (scope.vars <:+ ·) (stmts named rounds body w)
  | [], scope, inLoop, w, h, hw => ⟨rfl, hw ▸ List.suffix_refl _⟩
  | s :: rest, scope, inLoop, w, h, hw => by
      obtain ⟨hs, -, hrest⟩ := h
      rw [stmts]
      have hstmt := (stmt_lands s hs hw).mono (fun _ _ h => h)
        (fun vs (h : vs = scope.vars) => (h ▸ List.suffix_refl _ : scope.vars <:+ vs))
      refine hstmt.bind fun d w' hd => ?_
      have hafter := suffix_after scope s
      cases rest with
      | nil => exact ⟨hd.1, hd.2 ▸ hafter⟩
      | cons s' rest =>
          rw [bodyType_cons (List.cons_ne_nil s' rest)]
          exact (stmts_lands (s' :: rest) hrest hd.2).mono (fun _ _ h => ⟨h.1, hafter.trans h.2⟩)
            (fun _ h => hafter.trans h)

/-- A well-typed statement is never stuck, and a declaration adds a variable of its type. -/
theorem stmt_lands : ∀ (s : Stmt .typed) {scope : Scope} {inLoop : Bool} {w : World named.Vars},
    s.WellTyped scope inLoop → types w.vars = scope.vars →
      Lands inLoop (fun d vs => d.type = s.mark ∧ vs = (scope.after s).vars) (· = scope.vars)
        (stmt named rounds s w)
  | .declare type name init m, scope, inLoop, w, h, hw => by
      obtain ⟨-, hi, htag, rfl⟩ := h
      rw [stmt]
      refine (expr_lands init hi hw).bind fun d w' hd => ⟨rfl, ?_⟩
      show (name, d.type) :: types w'.vars = (name, type) :: scope.vars
      rw [hd.1, hd.2, htag]
  | .write newline value shown m, scope, inLoop, w, h, hw => by
      obtain ⟨hv, -, rfl⟩ := h
      rw [stmt]
      exact (expr_lands value hv hw).bind fun d w' hd => ⟨rfl, hd.2⟩
  | .leave m, scope, inLoop, w, h, hw => ⟨nofun, fun _ => h.1, hw⟩
  | .again m, scope, inLoop, w, h, hw => ⟨nofun, fun _ => h.1, hw⟩
  | .expr value m, scope, inLoop, w, h, hw => by
      obtain ⟨hv, rfl⟩ := h
      rw [stmt]
      exact expr_lands value hv hw

end

end Trees

end Eval

/-- A well-typed program ends, fails at run time, or has a loop that needs more rounds. -/
theorem Body.WellTyped.evaluates {program : Body .typed} (h : Body.WellTyped {} false program)
    (rounds : Nat) :
    match (Eval.stmts .named rounds program { vars := [], output := "" }).1 with
    | .ok _ | .error (.failed _) | .error .outOfRounds => True
    | .error .stuck | .error .leave | .error .again => False := by
  have hlands := Eval.stmts_lands rounds program h (w := { vars := [], output := "" }) rfl
  rcases hr : Eval.stmts .named rounds program { vars := [], output := "" } with ⟨r, w⟩
  rw [hr] at hlands
  cases r with
  | ok d => trivial
  | error why =>
      cases why with
      | stuck => exact hlands.1 rfl
      | leave => exact Bool.false_ne_true (hlands.2.1 (.inl rfl))
      | again => exact Bool.false_ne_true (hlands.2.1 (.inr rfl))
      | failed cause => trivial
      | outOfRounds => trivial

end BlockLang

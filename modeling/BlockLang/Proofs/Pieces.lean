import BlockLang.Proofs.Binding

/-! Checking in pieces. A check that fails, however deep in the tree, leaves the checker as if the
statement that failed had not been there: the scopes of blocks, the loops and the statements around
the failure are all left behind on the way out. So a checker can go on after any program, and checking
two programs one after the other is checking them as one. -/

namespace BlockLang

open Sequence

namespace Check

/-- A checker is in the same loop as before, and has perhaps given more warnings. -/
structure Proceeds (c c' : Checker) : Prop where
  inLoop : c'.inLoop = c.inLoop
  notices : c.notices <+: c'.notices

/-- Moreover it has the same scope. -/
structure Restores (c c' : Checker) : Prop extends Proceeds c c' where
  scope : c'.scope = c.scope

theorem Proceeds.trans {c c' c'' : Checker} (h : Proceeds c c') (h' : Proceeds c' c'') :
    Proceeds c c'' :=
  ⟨h'.inLoop.trans h.inLoop, h.notices.trans h'.notices⟩

theorem Restores.rfl {c : Checker} : Restores c c := ⟨⟨.refl _, List.prefix_refl _⟩, .refl _⟩

theorem Restores.trans {c c' c'' : Checker} (h : Restores c c') (h' : Restores c' c'') :
    Restores c c'' :=
  ⟨h.toProceeds.trans h'.toProceeds, h'.scope.trans h.scope⟩

section Outcomes

variable {α β : Type}

/-- The checker proceeds, whether the check succeeds or fails. -/
def Proceeding (x : Check α) : Prop := ∀ c, Proceeds c (x c).2

/-- The scope is restored if the check fails. -/
def Tentative (x : Check α) : Prop :=
  ∀ c, Proceeds c (x c).2 ∧ ∀ e, (x c).1 = .error e → (x c).2.scope = c.scope

/-- The scope is restored, whether the check succeeds or fails. -/
def Restoring (x : Check α) : Prop := ∀ c, Restores c (x c).2

variable {x : Check α} {f : α → Check β}

theorem leaves_bind {R : Checker → Checker → Prop}
    (htrans : ∀ {c c' c'' : Checker}, R c c' → R c' c'' → R c c'') (hx : ∀ c, R c (x c).2)
    (hf : ∀ a c, R c (f a c).2) (c : Checker) : R c ((x >>= f) c).2 := by
  have hc := hx c
  rw [bind_apply]
  rcases hr : x c with ⟨_ | a, c'⟩
  · rw [hr] at hc
    exact hc
  · rw [hr] at hc
    exact htrans hc (hf a c')

theorem Proceeding.bind (hx : Proceeding x) (hf : ∀ a, Proceeding (f a)) : Proceeding (x >>= f) :=
  leaves_bind .trans hx hf

theorem Tentative.bind (hx : Restoring x) (hf : ∀ a, Tentative (f a)) : Tentative (x >>= f) := by
  intro c
  have hc := hx c
  rw [bind_apply]
  rcases hr : x c with ⟨_ | a, c'⟩
  · rw [hr] at hc
    exact ⟨hc.toProceeds, fun _ _ => hc.scope⟩
  · rw [hr] at hc
    obtain ⟨hproceeds, hscope⟩ := hf a c'
    exact ⟨hc.toProceeds.trans hproceeds, fun e he => (hscope e he).trans hc.scope⟩

theorem Tentative.ite {y : Check α} {p : Prop} [Decidable p] (hx : Tentative x) (hy : Tentative y) :
    Tentative (if p then x else y) := by
  split
  · exact hx
  · exact hy

theorem Tentative.atStmt (hx : Tentative x) (token : Token) : Tentative (atStmt token x) := by
  intro c
  obtain ⟨hproceeds, hscope⟩ := hx { c with stmt := token }
  exact ⟨⟨hproceeds.inLoop, hproceeds.notices⟩, hscope⟩

theorem followed_proceeding (s : Stmt .parsed) (rest : Body .parsed) : Proceeding (followed s rest) := by
  intro c
  cases rest with
  | nil => exact Restores.rfl.toProceeds
  | cons next rest =>
      rw [followed]
      split
      · exact ⟨rfl, List.prefix_refl _⟩
      · exact Restores.rfl.toProceeds

namespace Restoring

theorem pure {a : α} : Restoring (pure a) := fun _ => .rfl

theorem get : Restoring (get : Check Checker) := fun _ => .rfl

theorem bind (hx : Restoring x) (hf : ∀ a, Restoring (f a)) : Restoring (x >>= f) :=
  leaves_bind .trans hx hf

theorem ite {y : Check α} {p : Prop} [Decidable p] (hx : Restoring x) (hy : Restoring y) :
    Restoring (if p then x else y) := by
  split
  · exact hx
  · exact hy

theorem tentative (hx : Restoring x) : Tentative x := fun c => ⟨(hx c).toProceeds, fun _ _ => (hx c).scope⟩

theorem fail {cause : TypeCause} : Restoring (fail cause : Check α) := fun _ => .rfl

theorem warn {concern : Concern} : Restoring (warn concern) :=
  fun _ => ⟨⟨rfl, List.prefix_append _ _⟩, rfl⟩

theorem require {holds : Bool} {cause : TypeCause} : Restoring (require holds cause) := ite pure fail

theorem lookup {name : String} : Restoring (lookup name) := by
  intro c
  rw [Check.lookup]
  split
  · exact .rfl
  · exact .rfl

theorem lift {r : Except TypeCause α} : Restoring (lift r) := by
  cases r with
  | ok a => exact pure
  | error cause => exact fail

theorem condition {construct : String} {cond : Expr .parsed} {type : Ty} :
    Restoring (condition construct cond type) := by
  refine bind require fun _ => ?_
  cases cond with
  | bool value => exact warn
  | _ => exact pure

/-- Whatever is declared in a block ends with it. -/
theorem inBlock (hx : Proceeding x) : Restoring (inBlock x) := by
  intro c
  have hc := hx { c with scope := c.scope.child }
  exact ⟨⟨hc.inLoop, hc.notices⟩, rfl⟩

theorem inLoop (hx : Restoring x) : Restoring (inLoop x) := by
  intro c
  have hc := hx { c with inLoop := true }
  exact ⟨⟨rfl, hc.notices⟩, hc.scope⟩

end Restoring

end Outcomes

mutual

/-- Checking an expression leaves the scope as it was, whether it succeeds or fails. -/
theorem expr_restoring : ∀ e : Expr .parsed, Restoring (expr e)
  | .int _ _ | .string _ _ | .bool _ _ | .unit _ => .pure
  | .var _ _ => .bind .lookup fun _ => .pure
  | .assign _ value _ =>
      .bind .lookup fun _ => .bind (expr_restoring value) fun _ => .bind .require fun _ =>
        .ite (.bind .warn fun _ => .pure) .pure
  | .unary _ operand _ =>
      .bind (expr_restoring operand) fun _ => .bind .lift fun _ => .pure
  | .binary _ left right _ =>
      .bind (expr_restoring left) fun _ => .bind (expr_restoring right) fun _ =>
        .bind .lift fun _ => .pure
  | .block body _ => .bind (.inBlock (stmts_proceeding body)) fun _ => .pure
  | .choice cond body others _ =>
      .bind (expr_restoring cond) fun _ => .bind .condition fun _ =>
        .bind (.inBlock (stmts_proceeding body)) fun _ =>
          .bind (branches_restoring others) fun _ => .pure
  | .loop cond body _ =>
      .bind (expr_restoring cond) fun _ => .bind .condition fun _ =>
        .bind (.inLoop (.inBlock (stmts_proceeding body))) fun _ => .pure

theorem branches_restoring : ∀ (b : Branches .parsed) {first : Ty}, Restoring (branches first b)
  | .done, _ => .bind .require fun _ => .pure
  | .otherwise body, _ =>
      .bind (.inBlock (stmts_proceeding body)) fun _ => .bind .require fun _ => .pure
  | .orIf cond body others, _ =>
      .bind (expr_restoring cond) fun _ => .bind .condition fun _ =>
        .bind (.inBlock (stmts_proceeding body)) fun _ => .bind .require fun _ =>
          .bind (branches_restoring others) fun _ => .pure

theorem stmts_proceeding : ∀ body : List (Stmt .parsed), Proceeding (stmts body)
  | [] => fun _ => Restores.rfl.toProceeds
  | s :: rest =>
      .bind (fun c => ((stmt_tentative s).atStmt s.mark c).1) fun _ =>
        .bind (followed_proceeding s rest) fun _ =>
          .bind (stmts_proceeding rest) fun _ _ => Restores.rfl.toProceeds

/-- A statement that fails leaves the scope as it was: a variable is declared last, when nothing can fail any more.
-/
theorem stmt_tentative : ∀ s : Stmt .parsed, Tentative (stmt s)
  | .declare type name init _ => by
      refine .bind .get fun _ => .bind .require fun _ => .bind (expr_restoring init) fun init' => ?_
      refine .bind .require fun _ => .bind .get fun _ => ?_
      have hdeclare : Tentative (modify (fun c => { c with scope := c.scope.declare name type }) >>=
          fun _ => (pure (.declare type name init' .unit) : Check (Stmt .typed))) :=
        fun c => ⟨⟨rfl, List.prefix_refl _⟩, by rintro _ ⟨⟩⟩
      exact .ite (.bind .warn fun _ => hdeclare) hdeclare
  | .write _ value _ _ => Restoring.tentative (.bind (expr_restoring value) fun _ => .pure)
  | .leave _ | .again _ => Restoring.tentative (.bind .get fun _ => .bind .require fun _ => .pure)
  | .expr value _ => Restoring.tentative (.bind (expr_restoring value) fun _ => .pure)

end

variable {c : Checker}

/-- Outside a loop no statement hands control to one. -/
theorem endsFlow_of_ok {s : Stmt .parsed} {s' : Stmt .typed} {c' : Checker} (hloop : c.inLoop = false)
    (h : stmt s c = (.ok s', c')) : endsFlow s = false := by
  obtain ⟨hwell, -, -, hflow⟩ := stmt_wellTyped s h
  rw [hloop] at hwell
  rw [← hflow]
  cases s' with
  | leave m | again m => exact absurd hwell.1 Bool.false_ne_true
  | _ => rfl

def consed (first : Check (Stmt .typed)) (rest : Check (Body .typed)) : Check (Body .typed) :=
  first >>= fun s => rest >>= fun body => pure (s :: body)

/-- Some statements and the statements behind them. -/
def joined (front back : Check (Body .typed)) : Check (Body .typed) :=
  front >>= fun body => back >>= fun body' => pure (body ++ body')

theorem consed_ok {first : Check (Stmt .typed)} {rest : Check (Body .typed)} {s : Stmt .typed}
    {c' : Checker} (h : first c = (.ok s, c')) :
    consed first rest c = ((rest c').1.map (s :: ·), (rest c').2) := by
  rw [consed, bind_apply, h]
  simp only [bind_apply]
  rcases rest c' with ⟨_ | body, c''⟩ <;> rfl

theorem consed_error {first : Check (Stmt .typed)} {rest : Check (Body .typed)} {e : TypeError}
    {c' : Checker} (h : first c = (.error e, c')) : consed first rest c = (.error e, c') := by
  rw [consed, bind_apply, h]

theorem joined_ok {front back : Check (Body .typed)} {body : Body .typed} {c' : Checker}
    (h : front c = (.ok body, c')) :
    joined front back c = ((back c').1.map (body ++ ·), (back c').2) := by
  rw [joined, bind_apply, h]
  simp only [bind_apply]
  rcases back c' with ⟨_ | body', c''⟩ <;> rfl

theorem joined_error {front back : Check (Body .typed)} {e : TypeError} {c' : Checker}
    (h : front c = (.error e, c')) : joined front back c = (.error e, c') := by
  rw [joined, bind_apply, h]

theorem joined_consed (first : Check (Stmt .typed)) (rest back : Check (Body .typed)) :
    joined (consed first rest) back = consed first (joined rest back) := by
  simp only [joined, consed, bind_assoc, pure_bind, List.cons_append]

/-- Outside a loop every statement can be followed by another one. -/
theorem stmts_cons (s : Stmt .parsed) (rest : Body .parsed) (hloop : c.inLoop = false) :
    stmts (s :: rest) c = consed (atStmt s.mark (stmt s)) (stmts rest) c := by
  rw [stmts]
  refine bind_congr fun s' c' hs => ?_
  obtain ⟨c₁, hst, -⟩ := atStmt_fine hs
  have hflow : endsFlow s = false := endsFlow_of_ok (c := { c with stmt := s.mark }) hloop hst
  cases rest with
  | nil => rfl
  | cons next rest =>
      rw [followed, hflow, if_neg Bool.false_ne_true]
      rfl

theorem inLoop_of_atStmt {token : Token} {s : Stmt .parsed} {r : Except TypeError (Stmt .typed)}
    {c' : Checker} (hloop : c.inLoop = false) (h : atStmt token (stmt s) c = (r, c')) :
    c'.inLoop = false := by
  have hproceeds := ((stmt_tentative s).atStmt token c).1
  rw [h] at hproceeds
  exact hproceeds.inLoop.trans hloop

/-- Outside a loop, statements are checked in pieces as they are checked as a whole. -/
theorem stmts_append (front back : Body .parsed) (hloop : c.inLoop = false) :
    stmts (front ++ back) c = joined (stmts front) (stmts back) c := by
  induction front generalizing c with
  | nil => simp only [List.nil_append, stmts, joined, pure_bind, bind_pure]
  | cons s front ih =>
      have hrest : consed (atStmt s.mark (stmt s)) (stmts (front ++ back)) c =
          consed (atStmt s.mark (stmt s)) (joined (stmts front) (stmts back)) c :=
        bind_congr fun _ _ hs => bind_congr_left (ih (inLoop_of_atStmt hloop hs))
      calc stmts (s :: (front ++ back)) c
        _ = consed (atStmt s.mark (stmt s)) (joined (stmts front) (stmts back)) c := by
          rw [stmts_cons _ _ hloop, hrest]
        _ = joined (consed (atStmt s.mark (stmt s)) (stmts front)) (stmts back) c := by
          rw [joined_consed]
        _ = joined (stmts (s :: front)) (stmts back) c :=
          bind_congr_left (stmts_cons _ _ hloop).symm

end Check

/-! ### Checks in a row -/

def Scope.extend (scope : Scope) (declarations : List (Declaration .parsed)) : Scope :=
  declarations.foldl (fun scope d => scope.declare d.name d.type) scope

/-- A statement extends the scope by its declaration, if it is one. -/
theorem Scope.after_eq_extend {s : Stmt .parsed} {s' : Stmt .typed} (h : s'.bare = s.bare)
    (scope : Scope) : scope.after s' = scope.extend s.declaration?.toList := by
  cases s' <;> cases s <;> simp only [Stmt.bare, Stmt.declare.injEq, reduceCtorEq] at h
  case declare.declare =>
    obtain ⟨rfl, rfl, -⟩ := h
    rfl
  all_goals rfl

namespace Checker

/-- The states of a checker: a new one, and what a check leaves behind, whether it succeeds or
fails. -/
inductive Reachable : Checker → Prop where
  | new : Reachable {}
  | check {c : Checker} (program : Body .parsed) : Reachable c → Reachable (c.check program).2

/-- The warnings that a check gives. -/
def warnings (c : Checker) (program : Body .parsed) : List Notice :=
  (c.check program).2.notices.drop c.notices.length

variable {c : Checker}

theorem Reachable.inLoop (hc : c.Reachable) : c.inLoop = false := by
  induction hc with
  | new => rfl
  | check program _ ih => exact (Check.stmts_proceeding program _).inLoop.trans ih

theorem notices_check (c : Checker) (program : Body .parsed) :
    (c.check program).2.notices = c.notices ++ c.warnings program :=
  (List.prefix_iff_eq_append.mp (Check.stmts_proceeding program c).notices).symm

/-- What a check leaves behind: no loop, the statement that it began with, and the scope with the
declarations among the statements that were checked before the end or the first failure. -/
structure Leaves (c : Checker) (program : Body .parsed) : Prop where
  inLoop : (c.check program).2.inLoop = false
  stmt : (c.check program).2.stmt = c.stmt
  scope : ∃ checked rest, program = checked ++ rest ∧ (∃ typed, (c.check checked).1 = .ok typed) ∧
    (rest = [] ∨ ∃ s more e, rest = s :: more ∧ (c.check (checked ++ [s])).1 = .error e ∧
      (c.check program).1 = .error e) ∧
    (c.check program).2.scope = c.scope.extend (checked.filterMap Stmt.declaration?)

theorem check_cons_ok {s : Stmt .parsed} {s' : Stmt .typed} {c' : Checker} (hloop : c.inLoop = false)
    (h : Check.atStmt s.mark (Check.stmt s) c = (.ok s', c')) (rest : Body .parsed) :
    c.check (s :: rest) = ((c'.check rest).1.map (s' :: ·), (c'.check rest).2) :=
  (Check.stmts_cons s rest hloop).trans (Check.consed_ok h)

theorem check_cons_error {s : Stmt .parsed} {e : TypeError} {c' : Checker} (hloop : c.inLoop = false)
    (h : Check.atStmt s.mark (Check.stmt s) c = (.error e, c')) (rest : Body .parsed) :
    c.check (s :: rest) = (.error e, c') :=
  (Check.stmts_cons s rest hloop).trans (Check.consed_error h)

theorem scope_of_atStmt {s : Stmt .parsed} {s' : Stmt .typed} {c' : Checker} {token : Token}
    (h : Check.atStmt token (Check.stmt s) c = (.ok s', c')) :
    c'.scope = c.scope.extend s.declaration?.toList := by
  obtain ⟨c₁, hs, rfl⟩ := Check.atStmt_fine h
  obtain ⟨-, hscope, -, -⟩ := Check.stmt_wellTyped s hs
  exact hscope.trans (Scope.after_eq_extend (Check.stmt_bare s _ _ _ hs) c.scope)

/-- What a check leaves behind, whether the program passes or fails on the way. -/
theorem leaves (hloop : c.inLoop = false) (program : Body .parsed) : c.Leaves program := by
  induction program generalizing c with
  | nil => exact ⟨hloop, rfl, [], [], rfl, ⟨[], rfl⟩, .inl rfl, rfl⟩
  | cons s rest ih =>
      rcases hs : Check.atStmt s.mark (Check.stmt s) c with ⟨e | s', c'⟩
      · have hc' : c' = (Check.atStmt s.mark (Check.stmt s) c).2 := by rw [hs]
        have hcheck := check_cons_error hloop hs
        obtain ⟨-, hscope⟩ := (Check.stmt_tentative s).atStmt s.mark c
        refine ⟨?_, ?_, [], s :: rest, rfl, ⟨[], rfl⟩, .inr ⟨s, rest, e, rfl, ?_, ?_⟩, ?_⟩
        · rw [hcheck]
          exact Check.inLoop_of_atStmt hloop hs
        · rw [hcheck, hc']
          rfl
        · rw [List.nil_append, hcheck]
        · rw [hcheck]
        · rw [hcheck, hc']
          exact hscope e (by rw [hs])
      · have hc' : c' = (Check.atStmt s.mark (Check.stmt s) c).2 := by rw [hs]
        have hcheck := check_cons_ok hloop hs
        obtain ⟨hinLoop, hstmt, checked, back, rfl, ⟨typed, htyped⟩, hback, hscope⟩ :=
          ih (Check.inLoop_of_atStmt hloop hs)
        refine ⟨?_, ?_, s :: checked, back, rfl, ⟨s' :: typed, ?_⟩, hback.imp_right ?_, ?_⟩
        · rw [hcheck]
          exact hinLoop
        · rw [hcheck]
          exact hstmt.trans (by rw [hc']; rfl)
        · rw [hcheck, htyped]
          rfl
        · rintro ⟨f, more, e, rfl, hfail, hwhole⟩
          refine ⟨f, more, e, rfl, ?_, ?_⟩
          · rw [List.cons_append, hcheck, hfail]
            rfl
          · rw [hcheck, hwhole]
            rfl
        · rw [hcheck]
          show (c'.check (checked ++ back)).2.scope = _
          rw [hscope, scope_of_atStmt hs, List.filterMap_cons]
          cases s.declaration? <;> rfl

/-- A checker in any state that earlier checks have left behind checks two programs as one: if the
first one fails, so does the whole, with the same error and the same warnings; otherwise the whole gives
the statements and the warnings of both, or the error of the second one. After every check, whether it
succeeds or fails, only those declarations remain that were checked at the top before the end or the
first failure. -/
theorem check_append (hc : c.Reachable) (front back : Body .parsed) :
    (∀ e, (c.check front).1 = .error e →
      c.check (front ++ back) = (.error e, (c.check front).2) ∧
      c.warnings (front ++ back) = c.warnings front) ∧
    (∀ typed, (c.check front).1 = .ok typed →
      c.check (front ++ back) = (((c.check front).2.check back).1.map (typed ++ ·),
        ((c.check front).2.check back).2) ∧
      c.warnings (front ++ back) = c.warnings front ++ (c.check front).2.warnings back) ∧
    c.Leaves front := by
  have happend : c.check (front ++ back) = Check.joined (Check.stmts front) (Check.stmts back) c :=
    Check.stmts_append front back hc.inLoop
  refine ⟨fun e he => ?_, fun typed htyped => ?_, leaves hc.inLoop front⟩
  · have hfront : Check.stmts front c = (.error e, (c.check front).2) := by
      rw [← he]
      rfl
    have hwhole : c.check (front ++ back) = (.error e, (c.check front).2) :=
      happend.trans (Check.joined_error hfront)
    refine ⟨hwhole, ?_⟩
    rw [warnings, hwhole, warnings]
  · have hfront : Check.stmts front c = (.ok typed, (c.check front).2) := by
      rw [← htyped]
      rfl
    have hwhole : c.check (front ++ back) = (((c.check front).2.check back).1.map (typed ++ ·),
        ((c.check front).2.check back).2) := happend.trans (Check.joined_ok hfront)
    refine ⟨hwhole, ?_⟩
    have hnotices := notices_check c (front ++ back)
    rw [hwhole, notices_check, notices_check, List.append_assoc] at hnotices
    exact (List.append_cancel_left hnotices).symm

/-- A check fails in a block inside a loop. What comes next sees the variable that was declared in front
of the loop and neither the one inside it nor the loop. -/
theorem check_append_unreachable :
    let failing : Body .parsed := [
      .declare .int "x" (.int 1 ()) {},
      .expr (.loop (.bool true ()) [
        .declare .int "y" (.int 2 ()) {},
        .expr (.block [.leave {}, .write true (.var "y" ()) () { line := 3 }] ()) {}] ()) {}]
    let front : Body .parsed := [.expr (.assign "x" (.var "x" ()) ()) { line := 4 }]
    let back : Body .parsed := [.leave { line := 5 }]
    let c := (({} : Checker).check failing).2
    (({} : Checker).check failing).1 = .error ⟨.unreachable, { line := 3 }⟩ ∧ c.Reachable ∧
      c.scope = ⟨[("x", .int)], ["x"]⟩ ∧
      (c.check (front ++ back)).1 = .error ⟨.outsideLoop "break", { line := 5 }⟩ ∧
      c.warnings (front ++ back) = [⟨.selfAssignment "x", { line := 4 }⟩] ∧
      c.Leaves front := by
  intro failing front back c
  have hc : c.Reachable := .check failing .new
  obtain ⟨-, hok, hleaves⟩ := check_append hc front back
  obtain ⟨hwhole, hwarnings⟩ := hok [.expr (.assign "x" (.var "x" .int) .int) .int] rfl
  refine ⟨rfl, hc, rfl, ?_, ?_, hleaves⟩
  · rw [hwhole]
    rfl
  · rw [hwarnings]
    rfl

end Checker

end BlockLang

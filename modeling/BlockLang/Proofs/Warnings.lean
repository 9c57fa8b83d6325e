import BlockLang.Proofs.Caching
import BlockLang.Proofs.Pieces
import BlockLang.Tool.Session

/-! Warnings and what they have a say in. A compilation records every warning in the order in which it
comes up, among the reports of its stages, and the settings of the session decide what becomes visible.
So the switches of warnings decide nothing but what is shown: the result is the same whatever they are,
and a warning that is shown under some settings is shown, in the same place among the others, under all
settings that show more. -/

namespace BlockLang

open Sequence

namespace Event

/-- Whether the settings let an event through. -/
def isShown (settings : Settings) : Event → Bool
  | logged e => decide (e.level.threshold ≤ settings.verbosity.toInt)
  | noticed n => settings.warns n.concern.warning

def text (sources : Sources) : Event → String
  | logged e => Act.logLine e
  | noticed n => sources.showNotice n

/-- Events that the settings let through, in order. -/
def shown (settings : Settings) (events : List Event) : List Event :=
  events.filter (isShown settings)

theorem shown_cons (settings : Settings) (event : Event) (rest : List Event) :
    shown settings (event :: rest) =
      if event.isShown settings then event :: shown settings rest else shown settings rest := by
  rw [shown, List.filter_cons]
  rfl

end Event

/-- A session that has written more to its error output. -/
def Session.told (s : Session) (text : String) : Session := { s with err := s.err ++ text }

namespace Act

variable {α : Type}

/-- How a stage ends for the user of a tool. -/
def ending (sources : Sources) : Except CompileError α → Except Failure α
  | .ok a => .ok a
  | .error e =>
    match e.diagnostic? with
    | some d => .error (.told ((sources.report? d).getD ""))
    | none => .error (.crashed e.message)

/-- One event is shown or passed over. -/
theorem showEvents_cons (sources : Sources) (event : Event) (rest : List Event) (s : Session) :
    showEvents sources (event :: rest) s =
      showEvents sources rest (if event.isShown s.settings then s.told (event.text sources) else s) := by
  cases event with
  | logged e =>
      rw [showEvents, bind_apply, log, bind_apply, get_apply]
      by_cases hlevel : e.level.threshold ≤ s.settings.verbosity.toInt
      · simp only [Event.isShown, hlevel, decide_true, if_true]
        rfl
      · simp only [Event.isShown, hlevel, decide_false, if_false, Bool.false_eq_true]
        rfl
  | noticed n =>
      rw [showEvents, bind_apply, get_apply]
      cases hwarns : s.settings.warns n.concern.warning with
      | true =>
          simp only [Event.isShown, hwarns, if_true]
          rfl
      | false =>
          simp only [Event.isShown, hwarns, if_false, Bool.false_eq_true]

/-- What is shown of some events is added to the error output, and nothing else changes. -/
theorem showEvents_apply (sources : Sources) (events : List Event) (s : Session) :
    showEvents sources events s =
      (.ok (), s.told (String.join ((Event.shown s.settings events).map (Event.text sources)))) := by
  induction events generalizing s with
  | nil =>
      rw [Event.shown, List.filter_nil, List.map_nil, String.join_nil, Session.told, String.append_empty]
      rfl
  | cons event rest ih =>
      rw [showEvents_cons, ih, Event.shown_cons]
      split_ifs
      · rw [List.map_cons, String.join_cons, Session.told, Session.told, Session.told, String.append_assoc]
      · rfl

theorem take_apply (sources : Sources) (c : Compiled α) (s : Session) :
    take sources c s =
      (ending sources c.result,
        s.told (String.join ((Event.shown s.settings c.events).map (Event.text sources)))) := by
  rw [take, bind_apply, showEvents_apply]
  rcases c.result with e | a
  · simp only [ending, failCompile]
    cases e.diagnostic? with
    | none => rfl
    | some d => rfl
  · rfl

end Act

/-! ### Warnings where they come up

A checker records its warnings, and they are shown when it is done. It might as well test the switch of a
warning where it comes up and show it there: it never looks at the warnings so far, so every step of it can
be taken aloud. -/

/-- A checker that has given other warnings before. -/
def Checker.preceded (c : Checker) (notices : List Notice) : Checker :=
  { c with notices := notices ++ c.notices }

/-- A checker whose warnings have been dropped. -/
def Checker.quiet (c : Checker) : Checker := { c with notices := [] }

/-- Checks whose warnings are shown as they come up. What is shown stands beside the checker, which keeps
no warning. -/
abbrev Aloud := ExceptT TypeError (StateM (Checker × String))

/-- Shows a warning at the current statement, if its switch is on. -/
def Aloud.warn (settings : Settings) (sources : Sources) (concern : Concern) : Aloud Unit := fun (c, shown) =>
  if settings.warns concern.warning then (.ok (), c, shown ++ sources.showNotice ⟨concern, c.stmt⟩)
  else (.ok (), c, shown)

namespace Check

variable {α β : Type} {x y : Check α} {f : α → Check β}

/-- What a check does, and what is shown of the warnings that it gives. -/
def aloud (settings : Settings) (sources : Sources) (x : Check α) : Aloud α := fun (c, shown) =>
  ((x c.quiet).1, (x c.quiet).2.quiet, shown ++ sources.showNotices settings (x c.quiet).2.notices)

/-- A check that does not look at the warnings so far. -/
def Heedless (x : Check α) : Prop := ∀ c notices, x (c.preceded notices) = ((x c).1, (x c).2.preceded notices)

theorem showNotices_append (sources : Sources) (settings : Settings) (front back : List Notice) :
    sources.showNotices settings (front ++ back) =
      sources.showNotices settings front ++ sources.showNotices settings back := by
  rw [Sources.showNotices, List.filter_append, List.map_append, String.join_append]
  rfl

/-- Aloud, a warning has its switch tested where it comes up. -/
theorem aloud_warn (settings : Settings) (sources : Sources) (concern : Concern) (c : Checker)
    (shown : String) :
    (warn concern).aloud settings sources (c.quiet, shown) =
      Aloud.warn settings sources concern (c.quiet, shown) := by
  have hone : (warn concern).aloud settings sources (c.quiet, shown) =
      (.ok (), c.quiet, shown ++ sources.showNotices settings [⟨concern, c.stmt⟩]) := rfl
  rw [hone, Sources.showNotices, Aloud.warn, List.filter_singleton]
  cases settings.warns concern.warning with
  | true =>
      rw [cond_true, List.map_singleton, String.join_cons, String.join_nil, String.append_empty]
      rfl
  | false =>
      rw [cond_false, List.map_nil, String.join_nil, String.append_empty]
      rfl

/-- Aloud, the steps of a check come one after the other, each with what it shows. -/
theorem aloud_bind (settings : Settings) (sources : Sources) (hf : ∀ a, Heedless (f a)) :
    (x >>= f).aloud settings sources =
      x.aloud settings sources >>= fun a => (f a).aloud settings sources := by
  funext ⟨c, shown⟩
  simp only [aloud, bind_apply]
  rcases x c.quiet with ⟨e | a, c'⟩
  · rfl
  · have hc : c' = c'.quiet.preceded c'.notices := by
      rw [Checker.preceded, Checker.quiet, List.append_nil]
    have hrest := (congrArg (f a) hc).trans (hf a c'.quiet c'.notices)
    show ((f a c').1, (f a c').2.quiet, shown ++ sources.showNotices settings (f a c').2.notices) = _
    rw [hrest, Checker.preceded, showNotices_append, ← String.append_assoc]
    rfl

namespace Heedless

theorem pure {a : α} : Heedless (Pure.pure a) := fun _ _ => rfl

theorem bind (hx : Heedless x) (hf : ∀ a, Heedless (f a)) : Heedless (x >>= f) := by
  intro c notices
  rw [bind_apply, bind_apply, hx c notices]
  rcases x c with ⟨e | a, c'⟩
  · rfl
  · exact hf a c' notices

theorem ite {p : Prop} [Decidable p] (hx : Heedless x) (hy : Heedless y) : Heedless (if p then x else y) := by
  split_ifs
  · exact hx
  · exact hy

theorem fail {cause : TypeCause} : Heedless (fail cause : Check α) := fun _ _ => rfl

theorem warn {concern : Concern} : Heedless (warn concern) := by
  intro c notices
  rw [Check.warn, Check.warn]
  simp only [Checker.preceded, List.append_assoc]

theorem require {holds : Bool} {cause : TypeCause} : Heedless (require holds cause) := ite pure fail

theorem lookup {name : String} : Heedless (lookup name) := by
  intro c notices
  rw [Check.lookup, Check.lookup]
  have hscope : (c.preceded notices).scope = c.scope := rfl
  rw [hscope]
  cases c.scope.type? name <;> rfl

theorem lift {r : Except TypeCause α} : Heedless (lift r) := by
  cases r with
  | ok a => exact pure
  | error cause => exact fail

/-- Entering and leaving a block, a loop or a statement has nothing to do with warnings. -/
theorem bracket {enter : Checker → Checker} {leave : Checker → Checker → Checker}
    (henter : ∀ c notices, enter (c.preceded notices) = (enter c).preceded notices)
    (hleave : ∀ c c' notices, leave (c.preceded notices) (c'.preceded notices) = (leave c c').preceded notices)
    (hx : Heedless x) : Heedless (bracket enter leave x) := by
  intro c notices
  simp only [Check.bracket, henter, hx (enter c) notices, hleave]
  rfl

theorem inBlock (hx : Heedless x) : Heedless (inBlock x) := bracket (fun _ _ => rfl) (fun _ _ _ => rfl) hx

theorem inLoop (hx : Heedless x) : Heedless (inLoop x) := bracket (fun _ _ => rfl) (fun _ _ _ => rfl) hx

theorem atStmt {token : Token} (hx : Heedless x) : Heedless (atStmt token x) :=
  bracket (fun _ _ => rfl) (fun _ _ _ => rfl) hx

/-- What is read from a checker is not one of its warnings. -/
theorem getting {f : Checker → Check α} (hread : ∀ c notices, f (c.preceded notices) = f c)
    (hf : ∀ c, Heedless (f c)) : Heedless (get >>= f) := by
  intro c notices
  rw [bind_apply, bind_apply, get_apply, get_apply]
  simp only [hread]
  exact hf c c notices

theorem condition {construct : String} {cond : Expr .parsed} {type : Ty} :
    Heedless (condition construct cond type) := by
  refine bind require fun _ => ?_
  cases cond with
  | bool value => exact warn
  | _ => exact pure

theorem followed {s : Stmt .parsed} {rest : Body .parsed} : Heedless (followed s rest) := by
  cases rest with
  | nil => exact pure
  | cons next rest => exact ite (fun _ _ => rfl) pure

end Heedless

mutual

/-- No check of an expression looks at the warnings that it has given. -/
theorem expr_heedless : ∀ e : Expr .parsed, Heedless (expr e)
  | .int _ _ | .string _ _ | .bool _ _ | .unit _ => .pure
  | .var _ _ => .bind .lookup fun _ => .pure
  | .assign _ value _ =>
      .bind .lookup fun _ => .bind (expr_heedless value) fun _ => .bind .require fun _ =>
        .ite (.bind .warn fun _ => .pure) .pure
  | .unary _ operand _ => .bind (expr_heedless operand) fun _ => .bind .lift fun _ => .pure
  | .binary _ left right _ =>
      .bind (expr_heedless left) fun _ => .bind (expr_heedless right) fun _ => .bind .lift fun _ => .pure
  | .block body _ => .bind (.inBlock (stmts_heedless body)) fun _ => .pure
  | .choice cond body others _ =>
      .bind (expr_heedless cond) fun _ => .bind .condition fun _ =>
        .bind (.inBlock (stmts_heedless body)) fun _ => .bind (branches_heedless others) fun _ => .pure
  | .loop cond body _ =>
      .bind (expr_heedless cond) fun _ => .bind .condition fun _ =>
        .bind (.inLoop (.inBlock (stmts_heedless body))) fun _ => .pure

theorem branches_heedless : ∀ (b : Branches .parsed) {first : Ty}, Heedless (branches first b)
  | .done, _ => .bind .require fun _ => .pure
  | .otherwise body, _ => .bind (.inBlock (stmts_heedless body)) fun _ => .bind .require fun _ => .pure
  | .orIf cond body others, _ =>
      .bind (expr_heedless cond) fun _ => .bind .condition fun _ =>
        .bind (.inBlock (stmts_heedless body)) fun _ => .bind .require fun _ =>
          .bind (branches_heedless others) fun _ => .pure

theorem stmts_heedless : ∀ body : List (Stmt .parsed), Heedless (stmts body)
  | [] => .pure
  | s :: rest =>
      .bind (.atStmt (stmt_heedless s)) fun _ => .bind .followed fun _ =>
        .bind (stmts_heedless rest) fun _ => .pure

theorem stmt_heedless : ∀ s : Stmt .parsed, Heedless (stmt s)
  | .declare _ _ init _ =>
      .getting (fun _ _ => rfl) fun _ => .bind .require fun _ => .bind (expr_heedless init) fun _ =>
        .bind .require fun _ => .getting (fun _ _ => rfl) fun _ =>
          .ite (.bind .warn fun _ => .bind (fun _ _ => rfl) fun _ => .pure)
            (.bind (fun _ _ => rfl) fun _ => .pure)
  | .write _ value _ _ => .bind (expr_heedless value) fun _ => .pure
  | .leave _ | .again _ => .getting (fun _ _ => rfl) fun _ => .bind .require fun _ => .pure
  | .expr value _ => .bind (expr_heedless value) fun _ => .pure

end

end Check

/-- A check that shows its warnings as they come up ends as one that records them, and shows what the
settings let through of those that are recorded. -/
theorem Checker.check_aloud (settings : Settings) (sources : Sources) (c : Checker) (program : Body .parsed)
    (shown : String) :
    (Check.stmts program).aloud settings sources (c, shown) =
      ((c.check program).1, (c.check program).2.quiet,
        shown ++ sources.showNotices settings (c.warnings program)) := by
  have hc : c = c.quiet.preceded c.notices := by
    rw [preceded, quiet, List.append_nil]
  have hcheck := (congrArg (Check.stmts program) hc).trans
    (Check.stmts_heedless program c.quiet c.notices)
  have hwarnings : c.warnings program = (Check.stmts program c.quiet).2.notices := by
    have hall : (c.check program).2.notices = c.notices ++ (Check.stmts program c.quiet).2.notices :=
      congrArg (·.2.notices) hcheck
    rw [warnings, hall, List.drop_left]
  have hsame : c.check program = _ := hcheck
  rw [hwarnings, hsame]
  rfl

namespace Compilation

/-- What a compilation shows under its settings. -/
def shown (settings : Settings) (name : String) (source : List Char) : List Event :=
  Event.shown settings (compiled settings name source).events

/-- The warnings among the shown events are those that are switched on; whether reports are shown makes no
difference. -/
theorem notices_shown (settings : Settings) (events : List Event) :
    notices (Event.shown settings events) =
      (notices events).filter fun n => settings.warns n.concern.warning := by
  induction events with
  | nil => rfl
  | cons event rest ih =>
      rw [Event.shown_cons]
      cases event with
      | logged e =>
          split_ifs <;> exact ih
      | noticed n =>
          have hcons : notices (.noticed n :: rest) = n :: notices rest := rfl
          rw [hcons, List.filter_cons, Event.isShown, ← ih]
          split_ifs <;> rfl

/-- Settings with the same features give the same result. The warnings under some settings are those
under settings that show all of them, without those that are switched off; `pedantic` switches none off.
A tool shows exactly these, in this order, and then the error if there is one. -/
theorem shown_warnings {settings settings' : Settings} (hfeature : settings.feature = settings'.feature)
    (name : String) (source : List Char) :
    (compiled settings name source).result = (compiled settings' name source).result ∧
    ((∀ w, settings'.warns w = true) →
      notices (shown settings name source) =
        (notices (shown settings' name source)).filter (fun n => settings.warns n.concern.warning) ∧
      (settings.warning .pedantic = true →
        notices (shown settings name source) = notices (shown settings' name source))) ∧
    ∀ s : Session, s.settings = settings →
      Act.take [⟨name, source⟩] (compiled settings name source) s =
        (Act.ending [⟨name, source⟩] (compiled settings name source).result,
          s.told (String.join ((shown settings name source).map (Event.text [⟨name, source⟩])))) := by
  have hcompiled := compiled_congr hfeature name source
  refine ⟨by rw [hcompiled], fun hall => ?_, fun s hs => ?_⟩
  · have hloud : notices (shown settings' name source) =
        notices (compiled settings name source).events := by
      rw [shown, notices_shown, ← hcompiled]
      exact List.filter_eq_self.mpr fun n _ => hall n.concern.warning
    rw [hloud, shown, notices_shown]
    refine ⟨rfl, fun hpedantic => List.filter_eq_self.mpr fun n _ => ?_⟩
    rw [Settings.warns, hpedantic, Bool.true_or]
  · subst hs
    exact Act.take_apply _ _ s

/-- The warnings of a program that is refused: one of an escape, found before anything is checked, one of
a shadowed variable, which is switched off, and one of a condition. -/
theorem shown_warnings_refused :
    let source := "int x = 1; \x7b int x = 2; while true \x7b write \"\\q\"; break \x7d \x7d; y".toList
    let quiet := (({} : Settings).setWarning .shadow false).setWarning .constCond true
    let loud := ({} : Settings).setWarning .pedantic true
    (compiled quiet "a.sw" source).result = (compiled loud "a.sw" source).result ∧
      (notices (shown loud "a.sw" source)).map (·.concern) =
        [.unknownEscape 'q', .shadows "x", .constantCondition "while" true] ∧
      (notices (shown quiet "a.sw" source)).map (·.concern) =
        [.unknownEscape 'q', .constantCondition "while" true] ∧
      notices (shown quiet "a.sw" source) =
        (notices (shown loud "a.sw" source)).filter (fun n => quiet.warns n.concern.warning) := by
  intro source quiet loud
  have hall : ∀ w, loud.warns w = true := fun w => by cases w <;> rfl
  have hfeature : quiet.feature = loud.feature := rfl
  obtain ⟨hresult, hshown, -⟩ := shown_warnings hfeature "a.sw" source
  exact ⟨hresult, by decide +kernel, by decide +kernel, (hshown hall).1⟩

end Compilation

end BlockLang

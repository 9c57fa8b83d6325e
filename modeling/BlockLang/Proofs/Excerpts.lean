import BlockLang.Proofs.Descent
import BlockLang.Proofs.Places

/-! Errors point at the right place. The scan counts lines and columns code point by code point, and a
report splits the whole source into lines; both mean the same line, so a report shows the line that
holds the first code point of its token, with the caret under that code point. The tokens that errors
carry come from the source: those of the scan and of the parser directly, those of the checker as the
first tokens of statements. -/

namespace BlockLang

theorem splitLines_ne_nil (cs : List Char) : splitLines cs ≠ [] := by
  cases cs with
  | nil => exact List.cons_ne_nil _ _
  | cons c cs =>
      rw [splitLines]
      split
      · exact List.cons_ne_nil _ _
      · split <;> exact List.cons_ne_nil _ _

theorem splitLines_cons {c : Char} (hc : c ≠ '\n') {cs line : List Char} {lines : List (List Char)}
    (h : splitLines cs = line :: lines) : splitLines (c :: cs) = (c :: line) :: lines := by
  rw [splitLines, if_neg hc, h]

/-- A line end divides the lines in front of it from those behind it. -/
theorem splitLines_append (a b : List Char) :
    splitLines (a ++ '\n' :: b) = splitLines a ++ splitLines b := by
  induction a with
  | nil => rfl
  | cons c a ih =>
      by_cases hc : c = '\n'
      · rw [List.cons_append, splitLines, splitLines, if_pos hc, if_pos hc, ih]
        rfl
      · obtain ⟨line, lines, ha⟩ := List.exists_cons_of_ne_nil (splitLines_ne_nil a)
        rw [ha] at ih
        rw [List.cons_append, splitLines_cons hc ha, splitLines_cons hc ih]
        rfl

theorem splitLines_of_notMem {line : List Char} (h : '\n' ∉ line) : splitLines line = [line] := by
  induction line with
  | nil => rfl
  | cons c line ih =>
      obtain ⟨hc, hline⟩ := not_or.mp (mt List.mem_cons.mpr h)
      exact splitLines_cons (Ne.symm hc) (ih hline)

theorem length_splitLines (cs : List Char) : (splitLines cs).length = 1 + cs.count '\n' := by
  induction cs with
  | nil => rfl
  | cons c cs ih =>
      by_cases hc : c = '\n'
      · rw [hc, splitLines, if_pos rfl, List.length_cons, ih, List.count_cons_self]
        omega
      · obtain ⟨line, lines, hcs⟩ := List.exists_cons_of_ne_nil (splitLines_ne_nil cs)
        rw [splitLines_cons hc hcs, List.count_cons_of_ne hc, ← ih, hcs]
        rfl

/-- A line of a source, between what is above it and what is below it. -/
structure IsLine (above line below : List Char) : Prop where
  inner : '\n' ∉ line
  above : above = [] ∨ ∃ a, above = a ++ ['\n']
  below : below = [] ∨ ∃ b, below = '\n' :: b

namespace IsLine

variable {above front back line below : List Char}

theorem head?_splitLines (h : IsLine above line below) :
    (splitLines (line ++ below)).head? = some line := by
  obtain hbelow | ⟨b, hbelow⟩ := h.below
  · rw [hbelow, List.append_nil, splitLines_of_notMem h.inner]
    rfl
  · rw [hbelow, splitLines_append, splitLines_of_notMem h.inner]
    rfl

/-- The line ends above a line count up to it. -/
theorem getElem?_splitLines (h : IsLine above line below) :
    (splitLines (above ++ line ++ below))[above.count '\n']? = some line := by
  have hhead := h.head?_splitLines
  rw [List.head?_eq_getElem?] at hhead
  obtain habove | ⟨a, habove⟩ := h.above
  · subst habove
    exact hhead
  · subst habove
    have hcount : (a ++ ['\n']).count '\n' = (splitLines a).length := by
      rw [length_splitLines, List.count_append, List.count_singleton_self, Nat.add_comm]
    rw [hcount, List.append_assoc, List.append_assoc, List.singleton_append, splitLines_append,
      List.getElem?_append_right (Nat.le_refl _), Nat.sub_self]
    exact hhead

/-- The column counts the code points of the line in front of a place. -/
theorem takeWhile_reverse (h : IsLine above (front ++ back) below) :
    (above ++ front).reverse.takeWhile (· != '\n') = front.reverse := by
  have hfront : ∀ c ∈ front.reverse, (c != '\n') = true := by
    intro c hc
    refine bne_iff_ne.mpr ?_
    rintro rfl
    exact h.inner (List.mem_append_left back (List.mem_reverse.mp hc))
  rw [List.reverse_append, List.takeWhile_append_of_pos hfront]
  obtain habove | ⟨a, habove⟩ := h.above
  · rw [habove]
    exact List.append_nil _
  · rw [habove, List.reverse_append]
    exact List.append_nil _

theorem count_append (h : IsLine above (front ++ back) below) :
    (above ++ front).count '\n' = above.count '\n' := by
  have hfront : '\n' ∉ front := fun hmem => h.inner (List.mem_append_left back hmem)
  rw [List.count_append, List.count_eq_zero.mpr hfront, Nat.add_zero]

end IsLine

theorem exists_lineEnd (cs : List Char) :
    ∃ line below, cs = line ++ below ∧ '\n' ∉ line ∧ (below = [] ∨ ∃ b, below = '\n' :: b) := by
  by_cases hmem : '\n' ∈ cs
  · obtain ⟨line, below, hcs, hline⟩ := List.eq_append_cons_of_mem hmem
    exact ⟨line, '\n' :: below, hcs, hline, .inr ⟨below, rfl⟩⟩
  · exact ⟨cs, [], (List.append_nil cs).symm, hmem, .inl rfl⟩

/-- Every place of a source lies in a line. -/
theorem exists_isLine (before behind : List Char) :
    ∃ above front back below, before = above ++ front ∧ behind = back ++ below ∧
      IsLine above (front ++ back) below := by
  obtain ⟨back, below, hbehind, hback, hbelow⟩ := exists_lineEnd behind
  obtain ⟨front, above, hbefore, hfront, habove⟩ := exists_lineEnd before.reverse
  refine ⟨above.reverse, front.reverse, back, below, ?_, hbehind, ?_, ?_, hbelow⟩
  · rw [← List.reverse_append, ← hbefore, List.reverse_reverse]
  · rw [List.mem_append, List.mem_reverse]
    exact not_or.mpr ⟨hfront, hback⟩
  · obtain rfl | ⟨b, rfl⟩ := habove
    · exact .inl rfl
    · exact .inr ⟨b.reverse, List.reverse_cons⟩

/-- A report shows the line that its token begins in, and the caret behind as many blanks as there are
code points of that line in front of the token. -/
theorem Sources.report?_of_standsFor {d : Diagnostic} {name : String}
    {above front back below lexeme : List Char} (hline : IsLine above (front ++ back) below)
    (hfile : d.token.file = 0) (ht : d.token.StandsFor (above ++ front) lexeme) :
    Sources.report? [⟨name, above ++ (front ++ back) ++ below⟩] d =
      some (name ++ ":" ++ toString d.token.line ++ ":" ++ toString d.token.column ++ ": " ++
        d.stage.name ++ " error: " ++ d.text ++ "\n" ++
        ("  " ++ String.ofList (front ++ back) ++ "\n  " ++
          ("".pushn ' ' front.length ++ "^" ++ "".pushn '~' (lexeme.length - 1)) ++ "\n")) := by
  have hcount := hline.count_append
  have hlineNumber := ht.line
  rw [hcount] at hlineNumber
  have hcolumn := ht.column
  rw [hline.takeWhile_reverse, List.length_reverse] at hcolumn
  have hfind : Sources.find? [⟨name, above ++ (front ++ back) ++ below⟩] d.token =
      some ⟨name, above ++ (front ++ back) ++ below⟩ := by
    rw [Sources.find?, hfile]
    rfl
  have hcaret : Sources.caret d.token =
      "".pushn ' ' front.length ++ "^" ++ "".pushn '~' (lexeme.length - 1) := by
    have hblanks : (d.token.column - 1).toNat = front.length := by omega
    have htildes : (d.token.len - 1).toNat = lexeme.length - 1 := by
      rw [ht.len]
      omega
    rw [Sources.caret, hblanks, htildes]
  have hindex : (d.token.line - 1).toNat = above.count '\n' := by omega
  have hget := hline.getElem?_splitLines
  have hlt : above.count '\n' < (splitLines (above ++ (front ++ back) ++ below)).length :=
    (List.getElem?_eq_some_iff.mp hget).1
  rw [Sources.report?, Sources.excerpt?, Sources.place, hfind]
  simp only
  rw [if_neg (by omega), if_neg (by omega), if_neg (by omega), hindex, hget, hcaret]
  rfl

/-! ### Tokens of a source -/

/-- A token stands for a piece of a source that does not begin with a line end, and that is empty only
at the end of the source. -/
structure Token.LiesIn (t : Token) (source before lexeme rest : List Char) : Prop where
  whole : source = before ++ lexeme ++ rest
  stands : t.StandsFor before lexeme
  file : t.file = 0
  visible : lexeme.head? ≠ some '\n'
  ends : lexeme = [] → rest = []

namespace Scan

/-- What is left behind a gap does not begin with a blank. -/
theorem isBlank_of_skipBlanks {comments inComment : Bool} {cs : List Char} {p : Position} {c : Char}
    (h : (skipBlanks comments inComment cs p).rest.head? = some c) : isBlank c = false := by
  induction cs generalizing inComment p with
  | nil => cases h
  | cons d cs ih =>
      rw [skipBlanks] at h
      split at h
      case isTrue => exact ih h
      case isFalse =>
        split at h
        case isTrue => exact ih h
        case isFalse hblank =>
          split at h
          case isTrue => exact ih h
          case isFalse =>
            cases h
            exact Bool.eq_false_iff.mpr hblank

variable {settings : Settings} {before rest : List Char}

/-- A step yields a token of the source, or an error at one, and goes on behind it. -/
theorem next_liesIn (settings : Settings) (before rest : List Char) :
    ∃ gap lexeme behind, rest = gap ++ lexeme ++ behind ∧
      (next settings 0 ⟨rest, .behind before⟩).token.LiesIn (before ++ rest) (before ++ gap) lexeme behind ∧
      ((next settings 0 ⟨rest, .behind before⟩).isLast = true ↔ lexeme = []) ∧
      (next settings 0 ⟨rest, .behind before⟩).cursor = ⟨behind, .behind (before ++ gap ++ lexeme)⟩ := by
  obtain ⟨text, gap, left, hrest, -, htext, -, -, hskip⟩ :=
    skipBlanks_gap (settings.feature .comments) false rest (.behind before)
  obtain rfl := htext rfl
  rw [List.nil_append] at hrest hskip
  rw [Position.advance_behind] at hskip
  cases left with
  | nil =>
      have hnext : next settings 0 ⟨rest, .behind before⟩ =
          { outcome := .ok (span 0 (.behind (before ++ gap)) (.behind (before ++ gap)) .eof ""),
            cursor := ⟨[], .behind (before ++ gap)⟩ } := by rw [next, hskip]
      refine ⟨gap, [], [], by rw [hrest, List.append_nil, List.append_nil], ?_, ?_, ?_⟩
      · rw [hnext]
        refine ⟨?_, ?_, rfl, by simp, fun _ => rfl⟩
        · rw [hrest, List.append_nil, List.append_nil, List.append_nil]
        · exact span_standsFor 0 (before ++ gap) [] .eof ""
      · rw [hnext]
        exact iff_of_true rfl rfl
      · rw [hnext, List.append_nil]
  | cons c cs =>
      obtain ⟨lexeme, behind, kind, text, hsplit, hne, hlast, htoken, hcursor⟩ := takes_of_skip hskip
      have hblank : isBlank c = false := isBlank_of_skipBlanks (by rw [hskip]; rfl)
      rw [Position.advance_behind] at hcursor
      refine ⟨gap, lexeme, behind, by rw [hrest, hsplit, List.append_assoc], ?_, ?_, hcursor⟩
      · rw [htoken]
        refine ⟨?_, ?_, rfl, ?_, fun h => absurd h hne⟩
        · rw [hrest, hsplit, List.append_assoc, List.append_assoc]
        · exact span_standsFor 0 (before ++ gap) lexeme kind text
        · intro hhead
          obtain ⟨d, more, rfl⟩ := List.exists_cons_of_ne_nil hne
          cases hsplit
          cases hhead
          cases hblank
      · rw [hlast]
        exact iff_of_false Bool.false_ne_true hne

/-- Every step over a source yields a token of it, or an error at one. -/
theorem stepsFrom_liesIn {count : Nat} {step : Scanned}
    (h : step ∈ stepsFrom settings 0 count ⟨rest, .behind before⟩) :
    ∃ b lexeme r, step.token.LiesIn (before ++ rest) b lexeme r ∧ (step.isLast = true ↔ lexeme = []) := by
  induction count generalizing before rest with
  | zero => cases h
  | succ count ih =>
      obtain ⟨gap, lexeme, behind, hrest, hlies, hlast, hcursor⟩ := next_liesIn settings before rest
      rw [stepsFrom] at h
      split at h
      case isTrue =>
        obtain rfl := List.mem_singleton.mp h
        exact ⟨_, _, _, hlies, hlast⟩
      case isFalse =>
        obtain rfl | h := List.mem_cons.mp h
        · exact ⟨_, _, _, hlies, hlast⟩
        · rw [hcursor] at h
          have hsource : before ++ rest = before ++ gap ++ lexeme ++ behind := by
            rw [hrest, List.append_assoc, List.append_assoc, List.append_assoc]
          rw [hsource]
          exact ih h

/-- The error of a scan is that of one of its steps. -/
theorem step_of_collect_error {steps : List Scanned} {e : LexicalError} (h : (collect steps).2 = .error e) :
    ∃ step ∈ steps, step.outcome = .error e := by
  induction steps with
  | nil => cases h
  | cons step steps ih =>
      rw [collect] at h
      cases hstep : step.outcome with
      | error e' =>
          rw [hstep] at h
          cases h
          exact ⟨step, List.mem_cons_self, hstep⟩
      | ok token =>
          rw [hstep] at h
          cases hrest : (collect steps).2 with
          | error e' =>
              simp only [hrest] at h
              cases h
              obtain ⟨step', hmem, hstep'⟩ := ih hrest
              exact ⟨step', List.mem_cons_of_mem _ hmem, hstep'⟩
          | ok others =>
              simp only [hrest] at h
              cases h

/-- The tokens of a source lie in it, and the end marker alone is empty. -/
theorem token_liesIn {source : List Char} {tokens : List Token}
    (h : (tokenize settings 0 source).2 = .ok tokens) {t : Token} (ht : t ∈ tokens) :
    ∃ before lexeme rest, t.LiesIn source before lexeme rest ∧ (lexeme = [] ↔ t.kind = .eof) := by
  obtain ⟨step, hmem, hstep⟩ := step_of_collect h ht
  obtain ⟨before, lexeme, rest, hlies, hlast⟩ := @stepsFrom_liesIn settings [] source _ _ hmem
  rw [Scanned.token, hstep] at hlies
  rw [isLast_of_ok hstep, beq_iff_eq] at hlast
  exact ⟨before, lexeme, rest, hlies, hlast.symm⟩

/-- A lexical error lies in the source and covers something. -/
theorem error_liesIn {source : List Char} {e : LexicalError}
    (h : (tokenize settings 0 source).2 = .error e) :
    ∃ before lexeme rest, e.token.LiesIn source before lexeme rest ∧ lexeme ≠ [] := by
  obtain ⟨step, hmem, hstep⟩ := step_of_collect_error h
  obtain ⟨before, lexeme, rest, hlies, hlast⟩ := @stepsFrom_liesIn settings [] source _ _ hmem
  have hopen : step.isLast = false := by rw [Scanned.isLast, hstep]
  rw [Scanned.token, hstep] at hlies
  rw [hopen] at hlast
  exact ⟨before, lexeme, rest, hlies, fun hempty => Bool.false_ne_true (hlast.mpr hempty)⟩

end Scan

/-! ### Statements of a program -/

mutual

def Expr.statements : Expr .parsed → List (Stmt .parsed)
  | .int _ _ | .string _ _ | .bool _ _ | .unit _ | .var _ _ => []
  | .assign _ value _ => value.statements
  | .unary _ operand _ => operand.statements
  | .binary _ left right _ => left.statements ++ right.statements
  | .block body _ => Body.statements body
  | .choice cond body others _ => cond.statements ++ (Body.statements body ++ others.statements)
  | .loop cond body _ => cond.statements ++ Body.statements body

/-- The statements inside the later branches of a choice. -/
def Branches.statements : Branches .parsed → List (Stmt .parsed)
  | .done => []
  | .otherwise body => Body.statements body
  | .orIf cond body others => cond.statements ++ (Body.statements body ++ others.statements)

/-- The statements of a body, each followed by those inside it. -/
def Body.statements : List (Stmt .parsed) → List (Stmt .parsed)
  | [] => []
  | s :: rest => s :: (s.inner ++ Body.statements rest)

def Stmt.inner : Stmt .parsed → List (Stmt .parsed)
  | .declare _ _ init _ => init.statements
  | .write _ value _ _ => value.statements
  | .leave _ | .again _ => []
  | .expr value _ => value.statements

end

theorem Body.head?_statements {body : Body .parsed} {s : Stmt .parsed} (h : s ∈ body.head?) :
    s ∈ Body.statements body := by
  cases body with
  | nil => cases h
  | cons first rest =>
      cases h
      exact List.mem_cons_self

namespace Check

open Sequence

section Failures

variable {α β : Type} {good : Token → Prop}

/-- A check that fails, if at all, at the current statement or at a token of a sort; otherwise it leaves
the current statement as it is. -/
structure FailsAt (good : Token → Prop) (x : Check α) : Prop where
  failed : ∀ {c c' e}, x c = (.error e, c') → e.token = c.stmt ∨ good e.token
  kept : ∀ {c c' a}, x c = (.ok a, c') → c'.stmt = c.stmt

/-- A check that never fails at the statement around it. -/
structure FailsWithin (good : Token → Prop) (x : Check α) : Prop where
  failed : ∀ {c c' e}, x c = (.error e, c') → good e.token
  kept : ∀ {c c' a}, x c = (.ok a, c') → c'.stmt = c.stmt

variable {x : Check α} {f : α → Check β}

namespace FailsAt

theorem pure {a : α} : FailsAt good (Pure.pure a) := by
  constructor
  · intro c c' e h
    cases h
  · intro c c' a h
    cases h
    rfl

theorem bind (hx : FailsAt good x) (hf : ∀ a, FailsAt good (f a)) : FailsAt good (x >>= f) := by
  constructor
  · intro c c' e h
    obtain h | ⟨a, c₁, hfine, h⟩ := bind_failed.mp h
    · exact hx.failed h
    · rw [← hx.kept hfine]
      exact (hf a).failed h
  · intro c c' b h
    obtain ⟨a, c₁, hfine, h⟩ := bind_fine.mp h
    exact ((hf a).kept h).trans (hx.kept hfine)

theorem ite {y : Check α} {p : Prop} [Decidable p] (hx : FailsAt good x) (hy : FailsAt good y) :
    FailsAt good (if p then x else y) := by
  split
  · exact hx
  · exact hy

theorem fail {cause : TypeCause} : FailsAt good (fail cause : Check α) := by
  constructor
  · intro c c' e h
    cases h
    exact .inl rfl
  · intro c c' a h
    cases h

/-- A change of anything but the current statement. -/
theorem change {g : Checker → α} {k : Checker → Checker} (hk : ∀ c, (k c).stmt = c.stmt) :
    FailsAt good (fun c => (.ok (g c), k c) : Check α) := by
  constructor
  · intro c c' e h
    cases h
  · intro c c' a h
    cases h
    exact hk c

theorem warn {concern : Concern} : FailsAt good (warn concern) := change fun _ => rfl

theorem require {holds : Bool} {cause : TypeCause} : FailsAt good (require holds cause) := ite pure fail

theorem lookup {name : String} : FailsAt good (lookup name) := by
  constructor
  · intro c c' e h
    rw [Check.lookup] at h
    split at h <;> cases h
    exact .inl rfl
  · intro c c' a h
    rw [Check.lookup] at h
    split at h <;> cases h
    rfl

theorem lift {r : Except TypeCause α} : FailsAt good (lift r) := by
  cases r with
  | ok a => exact pure
  | error cause => exact fail

theorem condition {construct : String} {cond : Expr .parsed} {type : Ty} :
    FailsAt good (condition construct cond type) := by
  refine bind require fun _ => ?_
  cases cond with
  | bool value => exact warn
  | _ => exact pure

end FailsAt

namespace FailsWithin

theorem failsAt (h : FailsWithin good x) : FailsAt good x := ⟨fun he => .inr (h.failed he), h.kept⟩

theorem pure {a : α} : FailsWithin good (Pure.pure a) := by
  constructor
  · intro c c' e h
    cases h
  · intro c c' a h
    cases h
    rfl

theorem bind (hx : FailsWithin good x) (hf : ∀ a, FailsWithin good (f a)) :
    FailsWithin good (x >>= f) := by
  constructor
  · intro c c' e h
    obtain h | ⟨a, c₁, -, h⟩ := bind_failed.mp h
    · exact hx.failed h
    · exact (hf a).failed h
  · intro c c' b h
    obtain ⟨a, c₁, hfine, h⟩ := bind_fine.mp h
    exact ((hf a).kept h).trans (hx.kept hfine)

/-- A statement that is marked with a good token fails at good tokens only. -/
theorem atStmt {token : Token} (hx : FailsAt good x) (ht : good token) :
    FailsWithin good (atStmt token x) := by
  constructor
  · intro c c' e h
    obtain ⟨hresult, -⟩ := Prod.mk.inj h
    rcases hr : x { c with stmt := token } with ⟨r, c₁⟩
    rw [hr] at hresult
    subst hresult
    obtain heq | hgood := hx.failed hr
    · rw [heq]
      exact ht
    · exact hgood
  · intro c c' a h
    obtain ⟨-, hafter⟩ := Prod.mk.inj h
    rw [← hafter]

/-- What a block or a loop does not mend is kept. -/
theorem bracket {enter : Checker → Checker} {leave : Checker → Checker → Checker}
    (hx : FailsWithin good x) (henter : ∀ c, (enter c).stmt = c.stmt)
    (hleave : ∀ c c', (leave c c').stmt = c'.stmt) : FailsWithin good (bracket enter leave x) := by
  constructor
  · intro c c' e h
    obtain ⟨hresult, -⟩ := Prod.mk.inj h
    rcases hr : x (enter c) with ⟨r, c₁⟩
    rw [hr] at hresult
    subst hresult
    exact hx.failed hr
  · intro c c' a h
    obtain ⟨hresult, hafter⟩ := Prod.mk.inj h
    rcases hr : x (enter c) with ⟨r, c₁⟩
    rw [hr] at hresult hafter
    subst hresult
    rw [← hafter, hleave, ← henter c]
    exact hx.kept hr

theorem inBlock (hx : FailsWithin good x) : FailsWithin good (inBlock x) :=
  hx.bracket (fun _ => rfl) fun _ _ => rfl

theorem inLoop (hx : FailsWithin good x) : FailsWithin good (inLoop x) :=
  hx.bracket (fun _ => rfl) fun _ _ => rfl

theorem followed {s : Stmt .parsed} {rest : Body .parsed}
    (hrest : ∀ next ∈ rest.head?, good next.mark) : FailsWithin good (followed s rest) := by
  cases rest with
  | nil => exact pure
  | cons next rest =>
      rw [Check.followed]
      split
      · refine ⟨fun h => ?_, fun h => ?_⟩
        · cases h
          exact hrest next rfl
        · cases h
      · exact pure

end FailsWithin

end Failures

variable {good : Token → Prop}

mutual

/-- A check of an expression fails at one of the statements inside it, or at the current one. -/
theorem expr_failsAt : ∀ (e : Expr .parsed), (∀ s ∈ e.statements, good s.mark) → FailsAt good (expr e)
  | .int _ _, _ => .pure
  | .string _ _, _ => .pure
  | .bool _ _, _ => .pure
  | .unit _, _ => .pure
  | .var _ _, _ => .bind .lookup fun _ => .pure
  | .assign _ value _, h =>
      .bind .lookup fun _ => .bind (expr_failsAt value h) fun _ => .bind .require fun _ =>
        .ite (.bind .warn fun _ => .pure) .pure
  | .unary _ operand _, h => .bind (expr_failsAt operand h) fun _ => .bind .lift fun _ => .pure
  | .binary _ left right _, h =>
      have ⟨hleft, hright⟩ := List.forall_mem_append.mp h
      .bind (expr_failsAt left hleft) fun _ => .bind (expr_failsAt right hright) fun _ =>
        .bind .lift fun _ => .pure
  | .block body _, h => .bind (stmts_failsWithin body h).inBlock.failsAt fun _ => .pure
  | .choice cond body others _, h =>
      have ⟨hcond, h⟩ := List.forall_mem_append.mp h
      have ⟨hbody, hothers⟩ := List.forall_mem_append.mp h
      .bind (expr_failsAt cond hcond) fun _ => .bind .condition fun _ =>
        .bind (stmts_failsWithin body hbody).inBlock.failsAt fun _ =>
          .bind (branches_failsAt _ others hothers) fun _ => .pure
  | .loop cond body _, h =>
      have ⟨hcond, hbody⟩ := List.forall_mem_append.mp h
      .bind (expr_failsAt cond hcond) fun _ => .bind .condition fun _ =>
        .bind (stmts_failsWithin body hbody).inBlock.inLoop.failsAt fun _ => .pure

theorem branches_failsAt : ∀ (first : Ty) (others : Branches .parsed),
    (∀ s ∈ others.statements, good s.mark) → FailsAt good (branches first others)
  | _, .done, _ => .bind .require fun _ => .pure
  | _, .otherwise body, h =>
      .bind (stmts_failsWithin body h).inBlock.failsAt fun _ => .bind .require fun _ => .pure
  | first, .orIf cond body others, h =>
      have ⟨hcond, h⟩ := List.forall_mem_append.mp h
      have ⟨hbody, hothers⟩ := List.forall_mem_append.mp h
      .bind (expr_failsAt cond hcond) fun _ => .bind .condition fun _ =>
        .bind (stmts_failsWithin body hbody).inBlock.failsAt fun _ => .bind .require fun _ =>
          .bind (branches_failsAt first others hothers) fun _ => .pure

theorem stmts_failsWithin : ∀ body : List (Stmt .parsed), (∀ s ∈ Body.statements body, good s.mark) →
    FailsWithin good (stmts body)
  | [], _ => .pure
  | s :: rest, h =>
      have ⟨hs, h⟩ := List.forall_mem_cons.mp h
      have ⟨hinner, hrest⟩ := List.forall_mem_append.mp h
      .bind (.atStmt (stmt_failsAt s hinner) hs) fun _ =>
        .bind (.followed fun next hnext => hrest next (Body.head?_statements hnext)) fun _ =>
          .bind (stmts_failsWithin rest hrest) fun _ => .pure

theorem stmt_failsAt : ∀ s : Stmt .parsed, (∀ s' ∈ s.inner, good s'.mark) → FailsAt good (stmt s)
  | .declare _ _ init _, h =>
      .bind (.change fun _ => rfl) fun _ => .bind .require fun _ => .bind (expr_failsAt init h) fun _ =>
        .bind .require fun _ => .bind (.change fun _ => rfl) fun _ =>
          .ite (.bind .warn fun _ => .bind (.change fun _ => rfl) fun _ => .pure)
            (.bind (.change fun _ => rfl) fun _ => .pure)
  | .write _ value _ _, h => .bind (expr_failsAt value h) fun _ => .pure
  | .leave _, _ => .bind (.change fun _ => rfl) fun _ => .bind .require fun _ => .pure
  | .again _, _ => .bind (.change fun _ => rfl) fun _ => .bind .require fun _ => .pure
  | .expr value _, h => .bind (expr_failsAt value h) fun _ => .pure

end

end Check

namespace Grammar

def Category.statements : (c : Category) → c.Tree → List (Stmt .parsed)
  | .expression, e | .operation _, e | .operand, e | .primary, e => Expr.statements e
  | .branches, others => Branches.statements others
  | .block, statements | .body, statements => Body.statements statements
  | .statement, s => s :: s.inner

/-- A part of a phrase is a statement, and the statement is marked with the first token of that part. -/
def Stands (w : List Token) (s : Stmt .parsed) : Prop :=
  ∃ v, s.mark :: v <:+: w ∧ Derives .statement (s.mark :: v) s

theorem Stands.mono {u w : List Token} {s : Stmt .parsed} (h : Stands u s) (hw : u <:+: w) :
    Stands w s := by
  obtain ⟨v, hv, hs⟩ := h
  exact ⟨v, hv.trans hw, hs⟩

theorem Derives.stands_self {w : List Token} {s : Stmt .parsed} (h : Derives .statement w s) :
    Stands w s := by
  have hfirst : ∃ v, w = s.mark :: v := by
    cases h with
    | declare | write | leave | again | expr => exact ⟨_, rfl⟩
  obtain ⟨v, rfl⟩ := hfirst
  exact ⟨v, List.infix_refl _, h⟩

/-- Every statement of a tree stands in the phrase of the tree. -/
theorem Derives.stands {c : Category} {w : List Token} {tree : c.Tree} (h : Derives c w tree) :
    ∀ s ∈ c.statements tree, Stands w s := by
  have hpart : ∀ {inner : List (Stmt .parsed)} {u w : List Token} (before behind : List Token),
      (∀ s ∈ inner, Stands u s) → before ++ u ++ behind = w → ∀ s ∈ inner, Stands w s :=
    fun before behind hu hw s hs => (hu s hs).mono ⟨before, behind, hw⟩
  induction h with
  | operation _ ih | tighter _ _ ih | operand _ ih | primary _ ih | braced _ ih => exact ih
  | least | number | string | truth | var | unit | done | empty =>
      intro s hs
      cases hs
  | @assign name sign w e _ _ _ ih => exact hpart [name, sign] [] ih (by simp)
  | @unary sign op w e _ _ ih => exact hpart [sign] [] ih (by simp)
  | @paren opening closing w e _ _ _ ih => exact hpart [opening] [closing] ih (by simp)
  | @otherwise word w body _ _ ih => exact hpart [word] [] ih (by simp)
  | @block opening closing w body _ _ _ ih => exact hpart [opening] [closing] ih (by simp)
  | @binary level sign op u v a b _ _ _ iha ihb =>
      refine List.forall_mem_append.mpr ⟨hpart [] (sign :: v) iha ?_, hpart (u ++ [sign]) [] ihb ?_⟩
      · simp
      · simp
  | @choice word u v w cond body others _ _ _ _ ihu ihv ihw
  | @orIf word u v w cond body others _ _ _ _ ihu ihv ihw =>
      refine List.forall_mem_append.mpr ⟨hpart [word] (v ++ w) ihu ?_, List.forall_mem_append.mpr
        ⟨hpart (word :: u) w ihv ?_, hpart (word :: (u ++ v)) [] ihw ?_⟩⟩
      · simp
      · simp
      · simp
  | @loop word u v cond body _ _ _ ihu ihv =>
      refine List.forall_mem_append.mpr ⟨hpart [word] v ihu ?_, hpart (word :: u) [] ihv ?_⟩
      · simp
      · simp
  | @last w s hs ih =>
      have hinner := (List.forall_mem_cons.mp ih).2
      refine List.forall_mem_cons.mpr ⟨hs.stands_self, List.forall_mem_append.mpr ⟨hinner, ?_⟩⟩
      exact List.forall_mem_nil _
  | @divided semi w rest s body hs _ _ ihs ihbody =>
      have hinner := (List.forall_mem_cons.mp ihs).2
      refine List.forall_mem_cons.mpr ⟨hs.stands_self.mono ⟨[], semi :: rest, ?_⟩,
        List.forall_mem_append.mpr ⟨hpart [] (semi :: rest) hinner ?_, hpart (w ++ [semi]) [] ihbody ?_⟩⟩
      · simp
      · simp
      · simp
  | @undivided brace next w rest s body hs _ _ _ ihs ihbody =>
      have hinner := (List.forall_mem_cons.mp ihs).2
      refine List.forall_mem_cons.mpr ⟨hs.stands_self.mono ⟨[], next :: rest, ?_⟩,
        List.forall_mem_append.mpr ⟨hpart [] (next :: rest) hinner ?_, hpart (w ++ [brace]) [] ihbody ?_⟩⟩
      · simp
      · simp
      · simp
  | @declare word name sign type w init htype hname hsign hinit ih =>
      refine List.forall_mem_cons.mpr ⟨(Derives.declare htype hname hsign hinit).stands_self, ?_⟩
      exact hpart [word, name, sign] [] ih (by simp)
  | @write word newline w value hword hvalue ih =>
      refine List.forall_mem_cons.mpr ⟨(Derives.write hword hvalue).stands_self, ?_⟩
      exact hpart [word] [] ih (by simp)
  | leave hword => exact List.forall_mem_singleton.mpr (Derives.leave hword).stands_self
  | again hword => exact List.forall_mem_singleton.mpr (Derives.again hword).stands_self
  | expr hvalue ih => exact List.forall_mem_cons.mpr ⟨(Derives.expr hvalue).stands_self, ih⟩

end Grammar

/-- The first code point of a token is the one at which its line is divided, for no token begins with a line end.
-/
theorem Token.LiesIn.head?_eq {t : Token} {source before lexeme rest above front back below : List Char}
    (h : t.LiesIn source before lexeme rest) (hline : IsLine above (front ++ back) below)
    (hbehind : lexeme ++ rest = back ++ below) : back.head? = lexeme.head? := by
  cases lexeme with
  | nil =>
      rw [h.ends rfl] at hbehind
      rw [(List.append_eq_nil_iff.mp hbehind.symm).1]
  | cons c lexeme =>
      cases back with
      | cons d back =>
          obtain ⟨rfl, -⟩ := List.cons.inj hbehind
          rfl
      | nil =>
          obtain rfl | ⟨b, rfl⟩ := hline.below
          · cases hbehind
          · obtain ⟨rfl, -⟩ := List.cons.inj hbehind
            exact absurd rfl h.visible

/-! ### Errors of a compilation -/

namespace Compilation

variable {settings : Settings} {name : String} {source : List Char} {d : Diagnostic}

/-- What a diagnostic of a compilation stems from. -/
inductive Stems (settings : Settings) (source : List Char) : Diagnostic → Prop where
  | lexical {e : LexicalError} : (Scan.tokenize settings 0 source).2 = .error e →
      Stems settings source e.toDiagnostic
  | grammatical {tokens : List Token} {e : SyntaxError} :
      (Scan.tokenize settings 0 source).2 = .ok tokens → parse tokens = .error e →
      Stems settings source e.toDiagnostic
  | typing {tokens : List Token} {body : Body .parsed} {e : TypeError} :
      (Scan.tokenize settings 0 source).2 = .ok tokens → parse tokens = .ok body →
      (({} : Checker).check body).1 = .error e → Stems settings source e.toDiagnostic

/-- An error with a diagnostic comes from scanning, parsing or checking; those of the later stages have none. -/
theorem stems_of_compiled {e : CompileError} (h : (compiled settings name source).result = .error e)
    (hd : e.diagnostic? = some d) : Stems settings source d := by
  cases hscan : (Scan.tokenize settings 0 source).2 with
  | error e' =>
      have hparsed : (parsed settings name source).result = .error (.lexical e') := by
        simp only [parsed, hscan]
      rw [compiled_result, resolved_result, typed_result, hparsed] at h
      cases h
      cases hd
      exact .lexical hscan
  | ok tokens =>
      rw [compiled_of_tokens hscan, ofTokens] at h
      cases hparse : parse tokens with
      | error e' =>
          rw [hparse] at h
          cases h
          cases hd
          exact .grammatical hscan hparse
      | ok body =>
          cases hcheck : (({} : Checker).check body).1 with
          | error e' =>
              rw [hparse] at h
              simp only [bind, Except.bind, Except.mapError, hcheck] at h
              cases h
              cases hd
              exact .typing hscan hparse hcheck
          | ok program =>
              rw [hparse] at h
              simp only [bind, Except.bind, Except.mapError, hcheck] at h
              cases hresolve : resolve program with
              | error e' =>
                  rw [hresolve] at h
                  cases h
                  cases hd
              | ok r =>
                  rw [hresolve] at h
                  cases hgenerate : generate r.1 r.2 with
                  | error e' =>
                      simp only [hgenerate] at h
                      cases h
                      cases hd
                  | ok p =>
                      simp only [hgenerate] at h
                      cases h

/-- A type error is placed at the first token of a statement of the program. -/
theorem stands_of_check {tokens : List Token} {body : Body .parsed} {e : TypeError}
    (hscan : (Scan.tokenize settings 0 source).2 = .ok tokens) (hparse : parse tokens = .ok body)
    (hcheck : (({} : Checker).check body).1 = .error e) :
    ∃ s ∈ Body.statements body, e.token = s.mark ∧ Grammar.Stands (Grammar.front tokens) s := by
  have hfails : Check.FailsWithin (fun t => ∃ s ∈ Body.statements body, t = s.mark)
      (Check.stmts body) := Check.stmts_failsWithin body fun s hs => ⟨s, hs, rfl⟩
  obtain ⟨s, hs, htoken⟩ := hfails.failed (Prod.ext hcheck rfl)
  have hderives : Grammar.Derives .body (Grammar.front tokens) body :=
    (Parse.parse_iff_front (Scan.tokenize_ends hscan) (Scan.proper_of_tokenize hscan)).mp hparse
  exact ⟨s, hs, htoken, hderives.stands s hs⟩

/-- The token of a diagnostic lies in the source. It is empty only at the end of the source, where a
statement, an expression or a sign is missing. -/
theorem Stems.liesIn (h : Stems settings source d) :
    ∃ before lexeme rest, d.token.LiesIn source before lexeme rest ∧
      (lexeme = [] ↔ d.stage = .grammatical ∧ d.token.kind = .eof) := by
  cases h with
  | lexical hscan =>
      obtain ⟨before, lexeme, rest, hlies, hne⟩ := Scan.error_liesIn hscan
      refine ⟨before, lexeme, rest, hlies, iff_of_false hne ?_⟩
      rintro ⟨hstage, -⟩
      cases hstage
  | grammatical hscan hparse =>
      have hmem := Parse.token_mem_of_parse (Scan.tokenize_ends hscan) hparse
      obtain ⟨before, lexeme, rest, hlies, hend⟩ := Scan.token_liesIn hscan hmem
      exact ⟨before, lexeme, rest, hlies, hend.trans (and_iff_right rfl).symm⟩
  | @typing tokens body e hscan hparse hcheck =>
      obtain ⟨s, -, htoken, v, hinfix, -⟩ := stands_of_check hscan hparse hcheck
      have hfront : e.token ∈ Grammar.front tokens := by
        rw [htoken]
        exact hinfix.subset List.mem_cons_self
      have hmem : e.token ∈ tokens := (List.takeWhile_sublist _).subset hfront
      obtain ⟨before, lexeme, rest, hlies, hend⟩ := Scan.token_liesIn hscan hmem
      refine ⟨before, lexeme, rest, hlies, iff_of_false ?_ ?_⟩
      · exact mt hend.mp (Grammar.ne_of_mem_front hfront)
      · rintro ⟨hstage, -⟩
        cases hstage

/-- The report of an error in a source shows the line of the source that holds the first code point of
its token, and a caret under that code point. Only if the end of the source is the token, the caret
stands behind the last line. The token of a type error is the first one of a statement. -/
theorem report_points_at_token {e : CompileError}
    (h : (compiled settings name source).result = .error e) (hd : e.diagnostic? = some d) :
    ∃ above front back below lexeme rest,
      source = above ++ (front ++ back) ++ below ∧ IsLine above (front ++ back) below ∧
      back ++ below = lexeme ++ rest ∧ d.token.StandsFor (above ++ front) lexeme ∧
      back.head? = lexeme.head? ∧ (lexeme = [] → back = [] ∧ below = []) ∧
      (lexeme = [] ↔ d.stage = .grammatical ∧ d.token.kind = .eof) ∧
      Sources.report? [⟨name, source⟩] d =
        some (name ++ ":" ++ toString d.token.line ++ ":" ++ toString d.token.column ++ ": " ++
          d.stage.name ++ " error: " ++ d.text ++ "\n" ++
          ("  " ++ String.ofList (front ++ back) ++ "\n  " ++
            ("".pushn ' ' front.length ++ "^" ++ "".pushn '~' (lexeme.length - 1)) ++ "\n")) ∧
      (d.stage = .typing → ∃ tokens body s w, (Scan.tokenize settings 0 source).2 = .ok tokens ∧
        parse tokens = .ok body ∧ s ∈ Body.statements body ∧ d.token = s.mark ∧
        s.mark :: w <:+: Grammar.front tokens ∧ Grammar.Derives .statement (s.mark :: w) s) := by
  have hstems := stems_of_compiled h hd
  obtain ⟨before, lexeme, rest, hlies, hempty⟩ := hstems.liesIn
  obtain ⟨above, front, back, below, rfl, hbehind, hline⟩ := exists_isLine before (lexeme ++ rest)
  have hsource : source = above ++ (front ++ back) ++ below := by
    rw [hlies.whole, List.append_assoc, hbehind]
    simp only [List.append_assoc]
  refine ⟨above, front, back, below, lexeme, rest, hsource, hline, hbehind.symm, hlies.stands, ?_, ?_,
    hempty, ?_, ?_⟩
  · exact hlies.head?_eq hline hbehind
  · intro hnil
    rw [hnil, hlies.ends hnil] at hbehind
    exact List.append_eq_nil_iff.mp hbehind.symm
  · rw [hsource]
    exact Sources.report?_of_standsFor hline hlies.file hlies.stands
  · intro hstage
    cases hstems with
    | lexical | grammatical => cases hstage
    | typing hscan hparse hcheck =>
        obtain ⟨s, hs, htoken, w, hinfix, hderives⟩ := stands_of_check hscan hparse hcheck
        exact ⟨_, _, s, w, hscan, hparse, hs, htoken, hinfix, hderives⟩

theorem report_points_at_token_second_line :
    ∃ e d, (compiled {} "a" "int x = 1;\r\n\tx = true // x\n".toList).result = .error e ∧
      e.diagnostic? = some d ∧ d.stage = .typing ∧
      ∃ front back lexeme, back.head? = lexeme.head? ∧ lexeme ≠ [] ∧
        Sources.report? [⟨"a", "int x = 1;\r\n\tx = true // x\n".toList⟩] d =
          some ("a" ++ ":" ++ toString d.token.line ++ ":" ++ toString d.token.column ++ ": " ++
            d.stage.name ++ " error: " ++ d.text ++ "\n" ++
            ("  " ++ String.ofList (front ++ back) ++ "\n  " ++
              ("".pushn ' ' front.length ++ "^" ++ "".pushn '~' (lexeme.length - 1)) ++ "\n")) := by
  have hresult : (compiled {} "a" "int x = 1;\r\n\tx = true // x\n".toList).result =
      .error (.typing ⟨.badAssign .bool .int "x", ⟨.ident, "x", 0, 2, 2, 1⟩⟩) := by decide +kernel
  obtain ⟨_, front, back, _, lexeme, _, -, -, -, -, hhead, -, hempty, hreport, -⟩ :=
    report_points_at_token hresult rfl
  refine ⟨_, _, hresult, rfl, rfl, front, back, lexeme, hhead, ?_, hreport⟩
  rw [Ne, hempty]
  decide

end Compilation

end BlockLang

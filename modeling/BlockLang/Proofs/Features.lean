import BlockLang.Compilation
import Mathlib.Control.Monad.Basic

/-! What the features of operators change. The operators `$` and `%` are features of their own, and a scan asks
for a feature only when it meets such an operator as a token. So settings that allow more operators change a
compilation only where it was refused because of an operator: inside strings, escapes and comments the two
characters mean nothing, and all that comes after the scan does not look at the settings. -/

namespace BlockLang

/-- The second settings allow every operator that the first ones allow, and read strings and comments alike. -/
structure Settings.Extends (s t : Settings) : Prop where
  comments : t.feature .comments = s.feature .comments
  escapes : t.feature .escapes = s.feature .escapes
  stringify : s.feature .stringify = true → t.feature .stringify = true
  remainder : s.feature .remainder = true → t.feature .remainder = true

/-- The cause of an error is that an operator is not allowed. -/
def LexicalCause.IsDisabled (cause : LexicalCause) : Prop := cause = .remainderDisabled ∨ cause = .stringifyDisabled

/-- A compilation ended at an operator that is not allowed. -/
def CompileError.IsDisabled (e : CompileError) : Prop := ∃ cause token, e = .lexical ⟨cause, token⟩ ∧ cause.IsDisabled

namespace Scan

variable {s t : Settings} {file : Int}

/-- A step meets an operator that is not allowed. -/
def Meets (step : Scanned) : Prop := ∃ e, step.outcome = .error e ∧ e.cause.IsDisabled

/-- An operator that is a feature, alike under two settings unless the first ones do not allow it. -/
theorem operator_eq_or_meets {p q : Bool} (h : p = true → q = true) {one fail : Scanned} (hfail : Meets fail) :
    (if q then one else fail) = (if p then one else fail) ∨ Meets (if p then one else fail) := by
  cases p with
  | true => simp [h]
  | false => exact .inr hfail

/-- A step is the same under settings that allow more, unless it meets an operator that is not allowed. -/
theorem next_eq_or_meets (h : s.Extends t) (file : Int) (cursor : Cursor) :
    next t file cursor = next s file cursor ∨ Meets (next s file cursor) := by
  rw [next, next, h.comments, h.escapes]
  rcases skipBlanks (s.feature .comments) false cursor.rest cursor.pos with ⟨rest, start⟩
  cases rest with
  | nil => exact .inl rfl
  | cons c rest =>
      dsimp only
      split
      · exact .inl rfl
      split
      · exact .inl rfl
      split
      case h_14 => exact operator_eq_or_meets h.remainder ⟨_, rfl, .inl rfl⟩
      case h_15 => exact operator_eq_or_meets h.stringify ⟨_, rfl, .inr rfl⟩
      all_goals exact .inl rfl

/-- A scan is the same under settings that allow more, unless it ends at an operator that is not allowed. -/
theorem collect_stepsFrom_eq_or_meets (h : s.Extends t) (file : Int) (count : Nat) (cursor : Cursor) :
    collect (stepsFrom t file count cursor) = collect (stepsFrom s file count cursor) ∨
      ∃ e, (collect (stepsFrom s file count cursor)).2 = .error e ∧ e.cause.IsDisabled := by
  induction count generalizing cursor with
  | zero => exact .inl rfl
  | succ count ih =>
      rw [stepsFrom, stepsFrom]
      rcases next_eq_or_meets h file cursor with hnext | ⟨e, hstep, hcause⟩
      · rw [hnext]
        by_cases hlast : (next s file cursor).isLast = true
        · rw [if_pos hlast, if_pos hlast]
          exact .inl rfl
        · rw [if_neg hlast, if_neg hlast, collect, collect]
          cases hstep : (next s file cursor).outcome with
          | error e => exact .inl rfl
          | ok token =>
              rcases ih (next s file cursor).cursor with hrest | ⟨e, hrest, hcause⟩
              · dsimp only
                rw [hrest]
                exact .inl rfl
              · refine .inr ⟨e, ?_, hcause⟩
                dsimp only
                rw [hrest]
                rfl
      · have hlast : ¬(next s file cursor).isLast = true := by
          rw [Scanned.isLast, hstep]
          exact Bool.false_ne_true
        refine .inr ⟨e, ?_, hcause⟩
        rw [if_neg hlast, collect, hstep]

end Scan

namespace Compilation

variable {s t : Settings}

theorem parsed_eq_or_isDisabled (h : s.Extends t) (name : String) (source : List Char) :
    parsed t name source = parsed s name source ∨
      ∃ e, (parsed s name source).result = .error e ∧ e.IsDisabled := by
  rw [parsed, parsed, Scan.tokenize, Scan.tokenize, Scan.steps, Scan.steps]
  rcases Scan.collect_stepsFrom_eq_or_meets h 0 (source.length + 1) { rest := source } with heq | ⟨e, herror, hcause⟩
  · rw [heq]
    exact .inl rfl
  · refine .inr ⟨.lexical e, ?_, e.cause, e.token, rfl, hcause⟩
    dsimp only
    rw [herror]

/-- A compilation is the same under settings that allow more, with its warnings and reports, unless it ends at an
operator that is not allowed. -/
theorem compiled_eq_or_isDisabled (h : s.Extends t) (name : String) (source : List Char) :
    compiled t name source = compiled s name source ∨
      ∃ e, (compiled s name source).result = .error e ∧ e.IsDisabled := by
  rw [compiled, compiled, resolved, resolved, typed, typed]
  rcases parsed_eq_or_isDisabled h name source with heq | ⟨e, herror, he⟩
  · rw [heq]
    exact .inl rfl
  · refine .inr ⟨e, ?_, he⟩
    simp only [herror]

/-- Allowing more operators keeps all that was not refused for want of an operator: what compiles, compiles to the
same program, and what fails for another reason, fails with the same error. -/
theorem operators_conservative (h : s.Extends t) (name : String) (source : List Char) :
    (∀ p, (compiled s name source).result = .ok p → (compiled t name source).result = .ok p) ∧
    (∀ e, (compiled s name source).result = .error e → ¬e.IsDisabled →
      (compiled t name source).result = .error e) := by
  rcases compiled_eq_or_isDisabled h name source with heq | ⟨e, herror, he⟩
  · rw [heq]
    exact ⟨fun _ hp => hp, fun _ he _ => he⟩
  · rw [herror]
    constructor
    · intro p hp
      cases hp
    · intro e' he' hother
      cases he'
      exact absurd he hother

/-- The operators' characters in a string, an escape and a comment, and in a program with a type error. -/
theorem operators_conservative_quoted :
    let few := (({} : Settings).setFeature .stringify false).setFeature .remainder false
    let all : Settings := {}
    few.Extends all ∧
      (∃ p, (compiled few "a.sw" "writeln \"$\\%\" // $ %".toList).result = .ok p ∧
        (compiled all "a.sw" "writeln \"$\\%\" // $ %".toList).result = .ok p) ∧
      ∃ e, (compiled few "a.sw" "int x = \"$%\"".toList).result = .error e ∧ ¬e.IsDisabled ∧
        (compiled all "a.sw" "int x = \"$%\"".toList).result = .error e := by
  intro few all
  have hextends : few.Extends all := ⟨rfl, rfl, fun _ => rfl, fun _ => rfl⟩
  refine ⟨hextends, ?_, ?_⟩
  · have hok : (compiled few "a.sw" "writeln \"$\\%\" // $ %".toList).result.isOk = true := by decide +kernel
    obtain ⟨hsame, -⟩ := operators_conservative hextends "a.sw" "writeln \"$\\%\" // $ %".toList
    cases hp : (compiled few "a.sw" "writeln \"$\\%\" // $ %".toList).result with
    | error e =>
        rw [hp] at hok
        cases hok
    | ok p => exact ⟨p, rfl, hsame p hp⟩
  · obtain ⟨-, hsame⟩ := operators_conservative hextends "a.sw" "int x = \"$%\"".toList
    have hunit : (compiled few "a.sw" "int x = \"$%\"".toList).result.map (fun _ => ()) =
        .error (.typing ⟨.badInit .int "x" .string, { kind := .kwInt, line := 1, column := 1, len := 3 }⟩) := by
      decide +kernel
    cases he : (compiled few "a.sw" "int x = \"$%\"".toList).result with
    | ok p =>
        rw [he] at hunit
        cases hunit
    | error e =>
        rw [he] at hunit
        have hother : ¬e.IsDisabled := by
          rintro ⟨cause, token, rfl, -⟩
          cases hunit
        exact ⟨e, rfl, hother, hsame e he hother⟩

end Compilation

end BlockLang

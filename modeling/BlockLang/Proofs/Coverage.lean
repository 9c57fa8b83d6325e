import BlockLang.Token.Scan
import Mathlib.Data.List.Basic

/-! The steps of a scan cover its source. A step skips a gap, which holds blanks and comments only, and
covers the text behind it with a token or an error; the next step goes on right behind that text. All
steps but the last cover something, the last one stands at the end of the source, and the line and the
column of each are those of the text that it covers. -/

namespace BlockLang

namespace Position

/-- The place behind some text at the start of a source. -/
def behind (before : List Char) : Position :=
  ⟨before.length, 1 + before.count '\n', 1 + (before.reverse.takeWhile (· != '\n')).length⟩

theorem after_behind (before : List Char) (c : Char) :
    (behind before).after c = behind (before ++ [c]) := by
  by_cases hc : c = '\n'
  · simp [behind, after, hc, Nat.add_assoc]
  · simp [behind, after, hc, Nat.add_assoc, Nat.add_comm 1]

theorem advance_behind (before cs : List Char) : (behind before).advance cs = behind (before ++ cs) := by
  induction cs generalizing before with
  | nil => simp [advance]
  | cons c cs ih =>
      calc (behind before).advance (c :: cs)
        _ = ((behind before).after c).advance cs := rfl
        _ = behind (before ++ [c] ++ cs) := by rw [after_behind, ih]
        _ = behind (before ++ c :: cs) := by simp

theorem offset_advance (p : Position) (cs : List Char) :
    (p.advance cs).offset = p.offset + cs.length := by
  induction cs generalizing p with
  | nil => rfl
  | cons c cs ih =>
      have hafter : (p.after c).offset = p.offset + 1 := by
        rw [after]
        split <;> rfl
      rw [advance, List.foldl_cons, ← advance, ih, hafter, List.length_cons]
      omega

end Position

/-- The token of a step, or that of its error. -/
def Scanned.token (s : Scanned) : Token :=
  match s.outcome with
  | .ok token => token
  | .error e => e.token

/-- A token stands for a piece of a source. The line is counted by the line ends in front of the piece,
the column by the code points behind the last of them. -/
structure Token.StandsFor (t : Token) (before lexeme : List Char) : Prop where
  line : t.line = 1 + (before.count '\n' : Nat)
  column : t.column = 1 + ((before.reverse.takeWhile (· != '\n')).length : Nat)
  len : t.len = lexeme.length

namespace Scan

/-- What may be skipped in front of some text: blanks and, where they are recognised, comments, which
run up to a line end or to the end of the source. -/
inductive Gap (comments : Bool) (behind : List Char) : List Char → Prop where
  | nil : Gap comments behind []
  | blank {c : Char} {rest : List Char} : c ∈ [' ', '\t', '\r', '\n'] → Gap comments behind rest →
      Gap comments behind (c :: rest)
  | comment {text rest : List Char} : comments = true → '\n' ∉ text →
      (∀ c ∈ (rest ++ behind).head?, c = '\n') → Gap comments behind rest →
      Gap comments behind ('/' :: '/' :: text ++ rest)

/-- The text `rest`, which stands behind the text `before`, is covered by some steps: each skips a gap,
and all but the last cover a piece that is not empty. The last one is at the end. -/
inductive Covers (comments : Bool) : (before rest : List Char) → List Scanned → Prop where
  | last {before gap : List Char} {step : Scanned} : step.isLast = true → Gap comments [] gap →
      step.token.StandsFor (before ++ gap) [] → Covers comments before gap [step]
  | next {before gap lexeme rest : List Char} {step : Scanned} {steps : List Scanned} :
      step.isLast = false → Gap comments (lexeme ++ rest) gap → lexeme ≠ [] →
      step.token.StandsFor (before ++ gap) lexeme →
      Covers comments (before ++ gap ++ lexeme) rest steps →
      Covers comments before (gap ++ lexeme ++ rest) (step :: steps)

theorem span_standsFor (file : Int) (before lexeme : List Char) (kind : TokenKind) (text : String) :
    (span file (.behind before) ((Position.behind before).advance lexeme) kind text).StandsFor before
      lexeme := by
  refine ⟨by simp [span, Position.behind], by simp [span, Position.behind], ?_⟩
  simp [span, Position.offset_advance]

theorem isBlank_iff {c : Char} : isBlank c = true ↔ c ∈ [' ', '\t', '\r', '\n'] := by
  simp [isBlank]
  grind

/-- In a comment, the rest of its line is skipped first. -/
theorem skipBlanks_gap (comments inComment : Bool) (cs : List Char) (p : Position) :
    ∃ text gap rest, cs = text ++ (gap ++ rest) ∧ '\n' ∉ text ∧ (inComment = false → text = []) ∧
      (inComment = true → ∀ c ∈ (gap ++ rest).head?, c = '\n') ∧ Gap comments rest gap ∧
      skipBlanks comments inComment cs p = ⟨rest, p.advance (text ++ gap)⟩ := by
  induction cs generalizing inComment p with
  | nil => exact ⟨[], [], [], rfl, by simp, by simp, by simp, .nil, rfl⟩
  | cons c cs ih =>
      rw [skipBlanks]
      split
      case isTrue hin =>
        obtain ⟨rfl, hc⟩ : inComment = true ∧ c ≠ '\n' := by simpa using hin
        obtain ⟨text, gap, rest, rfl, htext, -, hhead, hgap, hskip⟩ := ih true (p.after c)
        refine ⟨c :: text, gap, rest, rfl, ?_, by simp, hhead, hgap, hskip⟩
        simp [htext, Ne.symm hc]
      case isFalse hin =>
        have hhead : inComment = true → c = '\n' := by simpa using hin
        split
        case isTrue hblank =>
          obtain ⟨text, gap, rest, rfl, -, htext, -, hgap, hskip⟩ := ih false (p.after c)
          obtain rfl := htext rfl
          refine ⟨[], c :: gap, rest, rfl, by simp, by simp, ?_, .blank (isBlank_iff.mp hblank) hgap,
            hskip⟩
          simpa using hhead
        case isFalse hblank =>
          have hopen : inComment = false := by
            cases inComment with
            | false => rfl
            | true => exact absurd (by rw [hhead rfl]; decide) hblank
          split
          case isTrue hcomment =>
            obtain ⟨⟨hcomments, rfl⟩, hslash⟩ : (comments = true ∧ c = '/') ∧
                cs.head? = some '/' := by simpa using hcomment
            obtain ⟨text, gap, rest, hcs, htext, -, hend, hgap, hskip⟩ := ih true (p.after '/')
            obtain ⟨text, rfl⟩ : ∃ tail, text = '/' :: tail := by
              cases text with
              | cons d tail =>
                  rw [hcs] at hslash
                  obtain rfl : d = '/' := by simpa using hslash
                  exact ⟨tail, rfl⟩
              | nil =>
                  rw [List.nil_append] at hcs
                  exact absurd (hend rfl '/' (hcs ▸ hslash)) (by decide)
            have htail : '\n' ∉ text := fun h => htext (List.mem_cons_of_mem _ h)
            refine ⟨[], '/' :: '/' :: text ++ gap, rest, by simp [hcs], by simp, by simp, ?_,
              .comment hcomments htail (hend rfl) hgap, hskip⟩
            simp [hopen]
          case isFalse =>
            refine ⟨[], [], c :: cs, rfl, by simp, by simp, ?_, .nil, rfl⟩
            simp [hopen]

/-- A step reads a piece of the text that begins at a place, and is not the last one. -/
def Takes (file : Int) (start : Position) (cs : List Char) (s : Scanned) : Prop :=
  ∃ lexeme rest kind text, cs = lexeme ++ rest ∧ lexeme ≠ [] ∧ s.isLast = false ∧
    s.token = span file start (start.advance lexeme) kind text ∧
    s.cursor = ⟨rest, start.advance lexeme⟩

variable {file : Int} {start : Position} {c : Char} {cs rest : List Char}

/-- A name or a keyword takes all letters and digits that follow. -/
theorem word_takes (hc : isNameStart c = true) : Takes file start (c :: cs) (word file start (c :: cs)) := by
  have hpart : isNamePart c = true := by
    simp only [isNameStart, isNamePart, Bool.or_eq_true] at hc ⊢
    grind
  have hne : (c :: cs).takeWhile isNamePart ≠ [] := by simp [hpart]
  have htable : ∀ p ∈ TokenKind.keywords, p.2 ≠ .eof := by decide
  have hsplit : c :: cs = (c :: cs).takeWhile isNamePart ++ (c :: cs).dropWhile isNamePart :=
    List.takeWhile_append_dropWhile.symm
  rw [word]
  split
  case h_1 kind hkind =>
    obtain ⟨front, back, hkeywords, -⟩ := List.lookup_eq_some_iff.mp hkind
    have hmem : (String.ofList ((c :: cs).takeWhile isNamePart), kind) ∈ TokenKind.keywords := by
      rw [hkeywords]
      exact List.mem_append_right _ List.mem_cons_self
    exact ⟨_, _, kind, "", hsplit, hne, beq_false_of_ne (htable _ hmem), rfl, rfl⟩
  case h_2 => exact ⟨_, _, .ident, _, hsplit, hne, rfl, rfl, rfl⟩

theorem number_takes (hc : Text.isDigit c = true) :
    Takes file start (c :: cs) (number file start (c :: cs)) := by
  let digits := (c :: cs).takeWhile Text.isDigit
  let behind := (c :: cs).dropWhile Text.isDigit
  have hne : digits ++ behind.takeWhile isNameStart ≠ [] := by simp [digits, hc]
  have hsplit : c :: cs = digits ++ behind.takeWhile isNameStart ++ behind.dropWhile isNameStart := by
    rw [List.append_assoc, List.takeWhile_append_dropWhile, List.takeWhile_append_dropWhile]
  rw [number]
  split
  case h_1 value _ =>
    split
    · exact ⟨_, _, .number, _, hsplit, hne, rfl, rfl, rfl⟩
    · exact ⟨_, _, .number, _, hsplit, hne, rfl, rfl, rfl⟩
  case h_2 => exact ⟨_, _, .number, _, hsplit, hne, rfl, rfl, rfl⟩
  case h_3 => exact ⟨_, _, .number, _, hsplit, hne, rfl, rfl, rfl⟩

/-- Text that a literal has read lies in front of what it has left. -/
def Literal.Leaves (l : Literal) (p : Position) (cs : List Char) : Prop :=
  ∃ text rest, cs = text ++ rest ∧ l.cursor = ⟨rest, p.advance text⟩

/-- A literal takes a front part of what it is given, and the place behind it is the one that it says. -/
theorem literal_leaves (escapes : Bool) (file : Int) (cs : List Char) (p : Position) :
    (literal escapes file cs p).Leaves p cs := by
  fun_induction literal escapes file cs p with
  | case1 p => exact ⟨[], [], rfl, rfl⟩
  | case2 rest p => exact ⟨['"'], rest, rfl, rfl⟩
  | case3 rest p => exact ⟨[], '\n' :: rest, rfl, rfl⟩
  | case4 c rest p _ stop tail meant _ ih =>
      obtain ⟨text, rest, rfl, hcursor⟩ := ih
      exact ⟨'\\' :: c :: text, rest, rfl, hcursor⟩
  | case5 c rest p _ stop tail _ token ih =>
      obtain ⟨text, rest, rfl, hcursor⟩ := ih
      exact ⟨'\\' :: c :: text, rest, rfl, hcursor⟩
  | case6 c rest p _ ih =>
      obtain ⟨text, behind, hsplit, hcursor⟩ := ih
      exact ⟨'\\' :: text, behind, congrArg ('\\' :: ·) hsplit, hcursor⟩
  | case7 c rest p _ _ _ ih =>
      obtain ⟨text, rest, rfl, hcursor⟩ := ih
      exact ⟨c :: text, rest, rfl, hcursor⟩

theorem string_takes (escapes : Bool) :
    Takes file start ('"' :: cs) (string escapes file start cs) := by
  obtain ⟨text, rest, rfl, hcursor⟩ := literal_leaves escapes file cs (start.after '"')
  have hpos : (literal escapes file (text ++ rest) (start.after '"')).cursor.pos =
      start.advance ('"' :: text) := by
    rw [hcursor]
    rfl
  simp only [string, hpos]
  split
  · exact ⟨'"' :: text, rest, .string, _, rfl, by simp, rfl, rfl, hcursor⟩
  · exact ⟨'"' :: text, rest, .string, _, rfl, by simp, rfl, rfl, hcursor⟩

theorem sign_takes {single double : TokenKind} (hsingle : single ≠ .eof) (hdouble : double ≠ .eof) :
    Takes file start (c :: cs) (sign file start c cs single double) := by
  rw [sign.eq_def]
  split
  case h_1 rest =>
    exact ⟨[c, '='], rest, double, "", rfl, by simp, beq_false_of_ne hdouble, rfl, rfl⟩
  case h_2 => exact ⟨[c], cs, single, "", rfl, by simp, beq_false_of_ne hsingle, rfl, rfl⟩

/-! ### Steps -/

section Steps

variable {settings : Settings}

/-- A step that begins neither with a letter nor with a digit takes a literal, a sign or a code point that is none.
-/
theorem takes_of_ne (hname : isNameStart c = false) (hdigit : Text.isDigit c = false) {p : Position}
    (hskip : skipBlanks (settings.feature .comments) false rest p = ⟨c :: cs, start⟩) :
    Takes file start (c :: cs) (next settings file ⟨rest, p⟩) := by
  have hone : ∀ kind, kind ≠ .eof → Takes file start (c :: cs)
      { outcome := .ok (span file start (start.after c) kind ""), cursor := ⟨cs, start.after c⟩ } :=
    fun kind hkind => ⟨[c], cs, kind, "", rfl, by simp, beq_false_of_ne hkind, rfl, rfl⟩
  have hfail : ∀ cause kind, Takes file start (c :: cs)
      { outcome := .error ⟨cause, span file start (start.after c) kind ""⟩,
        cursor := ⟨cs, start.after c⟩ } :=
    fun cause kind => ⟨[c], cs, kind, "", rfl, by simp, rfl, rfl, rfl⟩
  rw [next, hskip]
  simp only [hname, hdigit, Bool.false_eq_true, if_false]
  split
  case h_10 | h_11 | h_12 => exact sign_takes (by decide) (by decide)
  case h_13 =>
    split
    · exact sign_takes (by decide) (by decide)
    · exact hfail _ _
  case h_14 | h_15 =>
    split
    · exact hone _ (by decide)
    · exact hfail _ _
  case h_16 => exact string_takes _
  case h_17 => exact hfail _ _
  all_goals exact hone _ (by decide)

/-- Behind the blanks a step takes one lexeme. -/
theorem takes_of_skip {p : Position}
    (hskip : skipBlanks (settings.feature .comments) false rest p = ⟨c :: cs, start⟩) :
    Takes file start (c :: cs) (next settings file ⟨rest, p⟩) := by
  cases hname : isNameStart c with
  | true =>
      rw [next, hskip]
      simp only [hname, if_true]
      exact word_takes hname
  | false =>
      cases hdigit : Text.isDigit c with
      | true =>
          rw [next, hskip]
          simp only [hname, hdigit, Bool.false_eq_true, if_false, if_true]
          exact number_takes hdigit
      | false => exact takes_of_ne hname hdigit hskip

/-- A step skips a gap; behind it there is nothing left, or a piece that the step reads. -/
theorem next_takes (settings : Settings) (file : Int) (cs : List Char) (p : Position) :
    ∃ gap rest, cs = gap ++ rest ∧ Gap (settings.feature .comments) rest gap ∧
      (rest = [] ∧ next settings file ⟨cs, p⟩ =
          { outcome := .ok (span file (p.advance gap) (p.advance gap) .eof ""),
            cursor := ⟨[], p.advance gap⟩ } ∨
        Takes file (p.advance gap) rest (next settings file ⟨cs, p⟩)) := by
  obtain ⟨text, gap, rest, hcs, -, htext, -, hgap, hskip⟩ :=
    skipBlanks_gap (settings.feature .comments) false cs p
  obtain rfl := htext rfl
  rw [List.nil_append] at hcs hskip
  refine ⟨gap, rest, hcs, hgap, ?_⟩
  cases rest with
  | nil =>
      refine .inl ⟨rfl, ?_⟩
      rw [next, hskip]
  | cons c rest => exact .inr (takes_of_skip hskip)

/-- The steps of a scan cover the source without a gap, if there are enough of them. -/
theorem stepsFrom_covers {count : Nat} {before rest : List Char} (h : rest.length < count) :
    Covers (settings.feature .comments) before rest
      (stepsFrom settings file count ⟨rest, .behind before⟩) := by
  induction count generalizing before rest with
  | zero => omega
  | succ count ih =>
      obtain ⟨gap, rest, rfl, hgap, ⟨rfl, hnext⟩ | htakes⟩ :=
        next_takes settings file rest (.behind before)
      · have hlast : (next settings file ⟨gap ++ [], .behind before⟩).isLast = true := by
          rw [hnext]
          rfl
        rw [stepsFrom, if_pos hlast, List.append_nil]
        rw [List.append_nil] at hlast hnext
        refine .last hlast hgap ?_
        rw [hnext, Position.advance_behind]
        exact span_standsFor file (before ++ gap) [] .eof ""
      · rw [Position.advance_behind] at htakes
        obtain ⟨lexeme, rest, kind, text, rfl, hne, hlast, htoken, hcursor⟩ := htakes
        have hlen : rest.length < count := by
          have := List.length_pos_iff.mpr hne
          simp only [List.length_append] at h
          omega
        rw [stepsFrom, hlast, if_neg Bool.false_ne_true, hcursor, Position.advance_behind,
          ← List.append_assoc]
        rw [← List.append_assoc] at hlast htoken
        refine .next hlast hgap hne ?_ (ih hlen)
        rw [htoken]
        exact span_standsFor file (before ++ gap) lexeme kind text

/-- More steps than code points are enough: the last one has been taken by then. -/
theorem stepsFrom_add {count : Nat} {p : Position} (h : rest.length < count) (more : Nat) :
    stepsFrom settings file (count + more) ⟨rest, p⟩ = stepsFrom settings file count ⟨rest, p⟩ := by
  induction count generalizing rest p with
  | zero => omega
  | succ count ih =>
      rw [Nat.add_right_comm, stepsFrom, stepsFrom]
      obtain ⟨gap, rest, rfl, -, ⟨rfl, hnext⟩ | htakes⟩ := next_takes settings file rest p
      · have hlast : (next settings file ⟨gap ++ [], p⟩).isLast = true := by
          rw [hnext]
          rfl
        rw [if_pos hlast, if_pos hlast]
      · obtain ⟨lexeme, rest, kind, text, rfl, hne, hlast, -, hcursor⟩ := htakes
        have hlen : rest.length < count := by
          have := List.length_pos_iff.mpr hne
          simp only [List.length_append] at h
          omega
        rw [hlast, hcursor, ih hlen]

end Steps

section Scans

variable {comments : Bool} {before : List Char} {steps : List Scanned}

theorem Covers.length_le (h : Covers comments before rest steps) : steps.length ≤ rest.length + 1 := by
  induction h with
  | last => simp
  | next _ _ hne _ _ ih =>
      have := List.length_pos_iff.mpr hne
      simp only [List.length_cons, List.length_append]
      omega

theorem isLast_of_ok {step : Scanned} {token : Token} (h : step.outcome = .ok token) :
    step.isLast = (token.kind == .eof) := by
  rw [Scanned.isLast, h]

/-- If all steps yield tokens, then the last of these marks the end, and it alone. -/
theorem Covers.collect (h : Covers comments before rest steps) {tokens : List Token}
    (htokens : (collect steps).2 = .ok tokens) :
    ∃ front eof, tokens = front ++ [eof] ∧ eof.kind = .eof ∧ ∀ t ∈ front, t.kind ≠ .eof := by
  induction h generalizing tokens with
  | @last _ _ step hlast _ _ =>
      cases hstep : step.outcome with
      | error e =>
          rw [Scan.collect, hstep] at htokens
          cases htokens
      | ok token =>
          rw [Scan.collect, hstep] at htokens
          cases htokens
          rw [isLast_of_ok hstep] at hlast
          exact ⟨[], token, rfl, eq_of_beq hlast, List.forall_mem_nil _⟩
  | @next _ _ _ _ step steps hlast _ _ _ _ ih =>
      cases hstep : step.outcome with
      | error e =>
          rw [Scan.collect, hstep] at htokens
          cases htokens
      | ok token =>
          rw [Scan.collect, hstep] at htokens
          cases hrest : (Scan.collect steps).2 with
          | error e =>
              simp only [hrest] at htokens
              cases htokens
          | ok others =>
              simp only [hrest] at htokens
              cases htokens
              obtain ⟨front, eof, rfl, heof, hfront⟩ := ih hrest
              rw [isLast_of_ok hstep] at hlast
              exact ⟨token :: front, eof, rfl, heof,
                List.forall_mem_cons.mpr ⟨ne_of_beq_false hlast, hfront⟩⟩

theorem tokenize_ends {settings : Settings} {source : List Char} {tokens : List Token}
    (h : (tokenize settings file source).2 = .ok tokens) :
    ∃ last, tokens.getLast? = some last ∧ last.kind = .eof := by
  have hcovers : Covers (settings.feature .comments) [] source (steps settings file source) :=
    stepsFrom_covers (Nat.lt_succ_self _)
  obtain ⟨front, last, rfl, hlast, -⟩ := hcovers.collect h
  exact ⟨last, List.getLast?_concat, hlast⟩

end Scans

/-- The steps over a source cover it from its start to its end, with nothing but gaps in between, and
every token and error has the line, the column and the length of the text that it covers. The end is
reached with at most one step more than there are code points, however many are allowed. If there is
no error, then the last token marks the end of the source, and it alone. -/
theorem steps_cover_source (settings : Settings) (file : Int) (source : List Char) :
    Covers (settings.feature .comments) [] source (steps settings file source) ∧
      (steps settings file source).length ≤ source.length + 1 ∧
      (∀ count, source.length < count →
        stepsFrom settings file count { rest := source } = steps settings file source) ∧
      ∀ tokens, (tokenize settings file source).2 = .ok tokens →
        ∃ front eof, tokens = front ++ [eof] ∧ eof.kind = .eof ∧ ∀ t ∈ front, t.kind ≠ .eof := by
  have hcovers : Covers (settings.feature .comments) [] source (steps settings file source) :=
    stepsFrom_covers (Nat.lt_succ_self _)
  refine ⟨hcovers, hcovers.length_le, fun count hcount => ?_, fun tokens => hcovers.collect⟩
  obtain ⟨more, rfl⟩ := Nat.exists_eq_add_of_le (Nat.succ_le_of_lt hcount)
  exact stepsFrom_add (Nat.lt_succ_self _) more

/-- A comment, an escaped line end, a number that is none, and a sign that is switched off; and the same
without the errors. -/
theorem steps_cover_source_continued :
    let settings := ({} : Settings).setFeature .stringify false
    let source := "\"a\\\nb\" // $\n12é $".toList
    let fine := "\"a\\\nb\" // $\n12".toList
    (steps settings 0 source).map (fun s => (s.isLast, s.token.line, s.token.column, s.token.len)) =
        [(false, 1, 1, 6), (false, 3, 1, 3), (false, 3, 5, 1), (true, 3, 6, 0)] ∧
      Covers true [] source (steps settings 0 source) ∧
      stepsFrom settings 0 100 { rest := source } = steps settings 0 source ∧
      ∃ tokens front eof, (tokenize settings 0 fine).2 = .ok tokens ∧ tokens = front ++ [eof] ∧
        eof.kind = .eof ∧ ∀ t ∈ front, t.kind ≠ .eof := by
  intro settings source fine
  obtain ⟨hcovers, -, hcount, -⟩ := steps_cover_source settings 0 source
  obtain ⟨-, -, -, htokens⟩ := steps_cover_source settings 0 fine
  have hok : (tokenize settings 0 fine).2.isOk = true := by decide +kernel
  refine ⟨by decide +kernel, hcovers, hcount 100 (by decide), ?_⟩
  cases hfine : (tokenize settings 0 fine).2 with
  | error e =>
      rw [hfine] at hok
      cases hok
  | ok tokens =>
      obtain ⟨front, eof, hend⟩ := htokens tokens hfine
      exact ⟨tokens, front, eof, rfl, hend⟩

end Scan

end BlockLang

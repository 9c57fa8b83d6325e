import BlockLang.Proofs.Coverage

/-! Unknown escapes. A step warns of exactly the escapes in the string literal that it covers which stand for
nothing, and each warning has the column of its backslash. Its line is the one on which the escape ends: that
of the backslash, unless the escaped code point is a line end, for which the warning is one line too low. -/

namespace BlockLang.Scan

/-- The inside of a string literal up to a place between two of its code points and escapes. -/
inductive Inside : List Char → Prop where
  | nil : Inside []
  | plain {c : Char} {rest : List Char} : c ∉ ['"', '\n', '\\'] → Inside rest → Inside (c :: rest)
  | escape (c : Char) {rest : List Char} : Inside rest → Inside ('\\' :: c :: rest)

/-- The warning about an unknown escape whose backslash stands behind some text. -/
def escapeNotice (file : Int) (before : List Char) (c : Char) : Notice where
  concern := .unknownEscape c
  token :=
    { kind := .string, file
      line := (1 + before.count '\n' + if c = '\n' then 1 else 0 : Nat)
      column := (1 + (before.reverse.takeWhile (· != '\n')).length : Nat)
      len := 2 }

/-- A warning is about an unknown escape in a piece of a string literal. -/
def TellsOf (file : Int) (before text : List Char) (n : Notice) : Prop :=
  ∃ inside c rest, text = inside ++ '\\' :: c :: rest ∧ Inside inside ∧ unescape? c = none ∧
    n = escapeNotice file (before ++ inside) c

variable {file : Int} {before text cs rest : List Char} {c : Char} {n : Notice}

theorem not_tellsOf_nil : ¬TellsOf file before [] n := by
  rintro ⟨inside, c, rest, htext, -⟩
  simp at htext

/-- There is no escape behind a backslash with which the source ends. -/
theorem not_tellsOf_backslash : ¬TellsOf file before ['\\'] n := by
  rintro ⟨inside, c, rest, htext, -⟩
  have hlen := congrArg List.length htext
  simp only [List.length_append, List.length_cons, List.length_nil] at hlen
  omega

theorem not_tellsOf_quote : ¬TellsOf file before ('"' :: text) n := by
  rintro ⟨inside, c, rest, htext, hinside, -⟩
  cases hinside with
  | nil => simp at htext
  | plain hc _ =>
      obtain ⟨rfl, -⟩ := List.cons.inj htext
      simp at hc
  | escape _ _ => simp at htext

/-- A plain code point is left behind without a warning. -/
theorem tellsOf_plain (hc : c ∉ ['"', '\n', '\\']) :
    TellsOf file before (c :: text) n ↔ TellsOf file (before ++ [c]) text n := by
  constructor
  · rintro ⟨inside, d, rest, htext, hinside, hd, hn⟩
    cases hinside with
    | nil =>
        obtain ⟨rfl, -⟩ := List.cons.inj htext
        simp at hc
    | @plain _ inside _ hinside =>
        obtain ⟨rfl, htail⟩ := List.cons.inj htext
        refine ⟨inside, d, rest, htail, hinside, hd, ?_⟩
        rw [hn, List.append_assoc, List.singleton_append]
    | escape _ _ =>
        obtain ⟨rfl, -⟩ := List.cons.inj htext
        simp at hc
  · rintro ⟨inside, d, rest, htext, hinside, hd, hn⟩
    refine ⟨c :: inside, d, rest, by rw [htext, List.cons_append], .plain hc hinside, hd, ?_⟩
    rw [hn, List.append_assoc, List.singleton_append]

/-- A backslash and the code point behind it are warned of if they are no escape, and then left behind. -/
theorem tellsOf_escape : TellsOf file before ('\\' :: c :: text) n ↔
    (unescape? c = none ∧ n = escapeNotice file before c) ∨
      TellsOf file (before ++ ['\\', c]) text n := by
  constructor
  · rintro ⟨inside, d, rest, htext, hinside, hd, hn⟩
    cases hinside with
    | nil =>
        obtain ⟨rfl, -⟩ := List.cons.inj (List.cons.inj htext).2
        rw [List.append_nil] at hn
        exact .inl ⟨hd, hn⟩
    | plain hc _ =>
        obtain ⟨rfl, -⟩ := List.cons.inj htext
        simp at hc
    | @escape _ inside hinside =>
        obtain ⟨rfl, htail⟩ := List.cons.inj (List.cons.inj htext).2
        refine .inr ⟨inside, d, rest, htail, hinside, hd, ?_⟩
        rw [hn, List.append_assoc]
        rfl
  · rintro (⟨hc, hn⟩ | ⟨inside, d, rest, htext, hinside, hd, hn⟩)
    · exact ⟨[], c, text, rfl, .nil, hc, by rw [hn, List.append_nil]⟩
    · refine ⟨'\\' :: c :: inside, d, rest, by rw [htext]; rfl, .escape c hinside, hd, ?_⟩
      rw [hn, List.append_assoc]
      rfl

/-- The warning has the column of the place in front of the escape and the line of the place behind it. -/
theorem escapeNotice_eq (file : Int) (before : List Char) (c : Char) :
    (⟨.unknownEscape c, { kind := .string, file
                          line := (((Position.behind before).after '\\').after c).line
                          column := (Position.behind before).column
                          len := 2 }⟩ : Notice) = escapeNotice file before c := by
  have hline : (((Position.behind before).after '\\').after c).line =
      1 + before.count '\n' + if c = '\n' then 1 else 0 := by
    by_cases hc : c = '\n'
    · simp [Position.after, Position.behind, hc]
    · simp [Position.after, Position.behind, hc]
  rw [hline]
  rfl

/-- A literal warns of the unknown escapes in the text that it reads. -/
theorem literal_tells (file : Int) (before cs : List Char) :
    ∃ text rest, cs = text ++ rest ∧
      (literal true file cs (.behind before)).cursor = ⟨rest, .behind (before ++ text)⟩ ∧
      ∀ n, n ∈ (literal true file cs (.behind before)).notices ↔ TellsOf file before text n := by
  generalize hp : Position.behind before = p
  generalize hescapes : true = escapes
  fun_induction literal escapes file cs p generalizing before with
  | case1 p =>
      refine ⟨[], [], rfl, by rw [← hp, List.append_nil], fun n => ?_⟩
      exact iff_of_false List.not_mem_nil not_tellsOf_nil
  | case2 rest p =>
      refine ⟨['"'], rest, rfl, by rw [← hp, Position.after_behind], fun n => ?_⟩
      exact iff_of_false List.not_mem_nil not_tellsOf_quote
  | case3 rest p =>
      refine ⟨[], '\n' :: rest, rfl, by rw [← hp, List.append_nil], fun n => ?_⟩
      exact iff_of_false List.not_mem_nil not_tellsOf_nil
  | case4 c rest p _ stop tail meant hmeant ih =>
      obtain ⟨text, rest, rfl, hcursor, hnotices⟩ := ih (before ++ ['\\', c])
        (by rw [← Position.advance_behind, hp]; rfl)
      refine ⟨'\\' :: c :: text, rest, rfl, ?_, fun n => ?_⟩
      · rw [List.append_assoc] at hcursor
        exact hcursor
      · have hknown : ¬(unescape? c = none ∧ n = escapeNotice file before c) := by simp [hmeant]
        rw [tellsOf_escape, or_iff_right hknown]
        exact hnotices n
  | case5 c rest p _ stop tail hunknown token ih =>
      obtain ⟨text, rest, rfl, hcursor, hnotices⟩ := ih (before ++ ['\\', c])
        (by rw [← Position.advance_behind, hp]; rfl)
      refine ⟨'\\' :: c :: text, rest, rfl, ?_, fun n => ?_⟩
      · rw [List.append_assoc] at hcursor
        exact hcursor
      · have htoken : (⟨.unknownEscape c, token⟩ : Notice) = escapeNotice file before c := by
          rw [← escapeNotice_eq, hp]
        rw [tellsOf_escape, and_iff_right hunknown, ← htoken, ← hnotices n]
        exact List.mem_cons
  | case6 c rest p hoff => exact absurd hescapes.symm hoff
  | case7 c rest p hquote hline hbackslash ih =>
      obtain ⟨text, rest, rfl, hcursor, hnotices⟩ := ih (before ++ [c])
        (by rw [← Position.after_behind, hp])
      refine ⟨c :: text, rest, rfl, ?_, fun n => (hnotices n).trans ?_⟩
      · rw [List.append_assoc] at hcursor
        exact hcursor
      · by_cases hc : c = '\\'
        · subst hc
          obtain rfl : text = [] := by
            cases text with
            | nil => rfl
            | cons d text => exact (hbackslash d (text ++ rest) rfl rfl).elim
          exact iff_of_false not_tellsOf_nil not_tellsOf_backslash
        · exact (tellsOf_plain (by simpa [hc] using ⟨hquote, hline⟩)).symm

section Steps

variable {settings : Settings} {start p : Position}

/-- Only string literals give warnings. -/
theorem notices_of_ne (hc : c ≠ '"')
    (hskip : skipBlanks (settings.feature .comments) false rest p = ⟨c :: cs, start⟩) :
    (next settings file ⟨rest, p⟩).notices = [] := by
  have hsign : ∀ single double, (sign file start c cs single double).notices = [] := by
    intro single double
    rw [sign.eq_def]
    split <;> rfl
  rw [next, hskip]
  dsimp only
  split
  · rfl
  split
  · rfl
  split
  case h_10 | h_11 | h_12 => exact hsign _ _
  case h_13 =>
    split
    · exact hsign _ _
    · rfl
  case h_14 | h_15 => split <;> rfl
  case h_16 => exact absurd rfl hc
  all_goals rfl

theorem next_of_quote
    (hskip : skipBlanks (settings.feature .comments) false rest p = ⟨'"' :: cs, start⟩) :
    next settings file ⟨rest, p⟩ = string (settings.feature .escapes) file start cs := by
  have hname : isNameStart '"' = false := by decide +kernel
  have hdigit : Text.isDigit '"' = false := by decide +kernel
  rw [next, hskip]
  simp only [hname, hdigit, Bool.false_eq_true, if_false]

/-- A step warns of the unknown escapes of the literal that it covers, if it covers one. -/
theorem next_tells (hescapes : settings.feature .escapes = true) (file : Int) (before cs : List Char) :
    ∃ gap lexeme rest, cs = gap ++ lexeme ++ rest ∧
      (next settings file ⟨cs, .behind before⟩).token.StandsFor (before ++ gap) lexeme ∧
      (next settings file ⟨cs, .behind before⟩).cursor = ⟨rest, .behind (before ++ gap ++ lexeme)⟩ ∧
      ∀ n, n ∈ (next settings file ⟨cs, .behind before⟩).notices ↔
        ∃ text, lexeme = '"' :: text ∧ TellsOf file (before ++ gap ++ ['"']) text n := by
  obtain ⟨skipped, gap, left, hcs, -, hskipped, -, -, hskip⟩ :=
    skipBlanks_gap (settings.feature .comments) false cs (.behind before)
  obtain rfl := hskipped rfl
  rw [List.nil_append] at hcs hskip
  rw [Position.advance_behind] at hskip
  cases left with
  | nil =>
      have hnext : next settings file ⟨cs, .behind before⟩ =
          { outcome := .ok (span file (.behind (before ++ gap)) (.behind (before ++ gap)) .eof "")
            cursor := ⟨[], .behind (before ++ gap)⟩ } := by rw [next, hskip]
      rw [hnext]
      refine ⟨gap, [], [], by rw [hcs, List.append_nil, List.append_nil], ?_, by rw [List.append_nil], ?_⟩
      · exact span_standsFor file (before ++ gap) [] .eof ""
      · exact fun n => iff_of_false List.not_mem_nil (by simp)
  | cons c left =>
      have htakes : Takes file (.behind (before ++ gap)) (c :: left)
          (next settings file ⟨cs, .behind before⟩) := takes_of_skip hskip
      obtain ⟨lexeme, rest, kind, said, hsplit, -, -, htoken, hcursor⟩ := htakes
      rw [Position.advance_behind] at hcursor
      refine ⟨gap, lexeme, rest, by rw [hcs, hsplit, List.append_assoc], ?_, hcursor, fun n => ?_⟩
      · rw [htoken]
        exact span_standsFor file (before ++ gap) lexeme kind said
      · by_cases hc : c = '"'
        · subst hc
          obtain ⟨text, behind, rfl, hread, hnotices⟩ := literal_tells file (before ++ gap ++ ['"']) left
          rw [← Position.after_behind] at hread hnotices
          rw [next_of_quote hskip, hescapes] at hcursor ⊢
          obtain ⟨rfl, -⟩ := Cursor.mk.inj (hread.symm.trans hcursor)
          obtain rfl : '"' :: text = lexeme := List.append_cancel_right hsplit
          refine (hnotices n).trans ⟨fun h => ⟨text, rfl, h⟩, ?_⟩
          rintro ⟨_, ⟨⟩, h⟩
          exact h
        · rw [notices_of_ne hc hskip]
          refine iff_of_false List.not_mem_nil ?_
          rintro ⟨text, rfl, -⟩
          exact hc (List.cons.inj hsplit).1

/-- Every step of a scan warns of the unknown escapes of the literal that it covers, if it covers one. -/
theorem stepsFrom_tells (hescapes : settings.feature .escapes = true) {count : Nat} {step : Scanned}
    (h : step ∈ stepsFrom settings file count ⟨cs, .behind before⟩) :
    ∃ front lexeme rest, before ++ cs = front ++ lexeme ++ rest ∧ step.token.StandsFor front lexeme ∧
      ∀ n, n ∈ step.notices ↔ ∃ text, lexeme = '"' :: text ∧ TellsOf file (front ++ ['"']) text n := by
  induction count generalizing before cs with
  | zero => cases h
  | succ count ih =>
      obtain ⟨gap, lexeme, rest, rfl, hstands, hcursor, hnotices⟩ := next_tells hescapes file before cs
      have hhere : before ++ (gap ++ lexeme ++ rest) = before ++ gap ++ lexeme ++ rest := by
        simp only [List.append_assoc]
      rw [stepsFrom] at h
      split at h
      case isTrue =>
        obtain rfl := List.mem_singleton.mp h
        exact ⟨before ++ gap, lexeme, rest, hhere, hstands, hnotices⟩
      case isFalse =>
        obtain rfl | hlater := List.mem_cons.mp h
        · exact ⟨before ++ gap, lexeme, rest, hhere, hstands, hnotices⟩
        · rw [hcursor] at hlater
          rw [hhere]
          exact ih hlater

end Steps

/-- The warnings of a scan that ends at its first error are those of its steps up to there. -/
theorem mem_collect {steps : List Scanned} (h : n ∈ (collect steps).1) : ∃ step ∈ steps, n ∈ step.notices := by
  induction steps with
  | nil => cases h
  | cons step steps ih =>
      rw [collect] at h
      split at h
      case h_1 => exact ⟨step, List.mem_cons_self, h⟩
      case h_2 =>
        obtain hstep | hlater := List.mem_append.mp h
        · exact ⟨step, List.mem_cons_self, hstep⟩
        · obtain ⟨later, hmem, hn⟩ := ih hlater
          exact ⟨later, List.mem_cons_of_mem _ hmem, hn⟩

/-- Where escapes are recognised, each step of a scan covers a piece of the source and warns of the unknown
escapes in it, and of nothing else: those whose backslash stands in a string literal between two of its code
points and escapes. A warning has the column of its backslash, and its line too, unless the escaped code point
is a line end: then the line is the next one. The warnings of a scan up to its first error are warnings of its
steps. -/
theorem unknown_escapes_located (settings : Settings) (file : Int) (source : List Char)
    (hescapes : settings.feature .escapes = true) :
    (∀ step ∈ steps settings file source, ∃ before lexeme rest, source = before ++ lexeme ++ rest ∧
      step.token.StandsFor before lexeme ∧
      ∀ n, n ∈ step.notices ↔ ∃ inside c behind, lexeme = '"' :: inside ++ '\\' :: c :: behind ∧
        Inside inside ∧ unescape? c = none ∧ n = escapeNotice file (before ++ '"' :: inside) c) ∧
    ∀ n ∈ (tokenize settings file source).1, ∃ step ∈ steps settings file source, n ∈ step.notices := by
  refine ⟨fun step hstep => ?_, fun n hn => mem_collect hn⟩
  have hfrom : step ∈ stepsFrom settings file (source.length + 1) ⟨source, .behind []⟩ := hstep
  obtain ⟨before, lexeme, rest, hsource, hstands, hnotices⟩ := stepsFrom_tells hescapes hfrom
  refine ⟨before, lexeme, rest, hsource, hstands, fun n => (hnotices n).trans ?_⟩
  constructor
  · rintro ⟨text, hlexeme, inside, c, behind, rfl, hinside, hc, hn⟩
    rw [List.append_assoc] at hn
    exact ⟨inside, c, behind, hlexeme, hinside, hc, hn⟩
  · rintro ⟨inside, c, behind, hlexeme, hinside, hc, hn⟩
    refine ⟨inside ++ '\\' :: c :: behind, hlexeme, inside, c, behind, rfl, hinside, hc, ?_⟩
    rw [List.append_assoc]
    exact hn

/-- Two unknown escapes in one literal, the second one of a line end. -/
theorem unknown_escapes_located_two :
    let source := "x \"a\\q\\\n\"".toList
    ({} : Settings).feature .escapes = true ∧
      (tokenize {} 0 source).1 =
        [escapeNotice 0 "x \"a".toList 'q', escapeNotice 0 "x \"a\\q".toList '\n'] ∧
      ∀ n ∈ (tokenize {} 0 source).1, ∃ before lexeme rest, source = before ++ lexeme ++ rest ∧
        ∃ inside c behind, lexeme = '"' :: inside ++ '\\' :: c :: behind ∧ Inside inside ∧
          unescape? c = none ∧ n = escapeNotice 0 (before ++ '"' :: inside) c := by
  intro source
  obtain ⟨hsteps, htokens⟩ := unknown_escapes_located {} 0 source rfl
  refine ⟨rfl, by decide +kernel, fun n hn => ?_⟩
  obtain ⟨step, hstep, hnotice⟩ := htokens n hn
  obtain ⟨before, lexeme, rest, hsource, -, hnotices⟩ := hsteps step hstep
  exact ⟨before, lexeme, rest, hsource, (hnotices n).mp hnotice⟩

/-- The warning about an escaped line end is not on the line of its backslash. -/
theorem escaped_line_end_misplaced :
    let source := "\"\\\n\"".toList
    ({} : Settings).feature .escapes = true ∧ ({} : Settings).warns .unknownEscape = true ∧
      ∃ n ∈ (tokenize {} 0 source).1, n.concern = .unknownEscape '\n' ∧
        ∀ before rest, source = before ++ '\\' :: rest → n.token.line ≠ 1 + (before.count '\n' : Nat) := by
  intro source
  refine ⟨rfl, rfl, escapeNotice 0 ['"'] '\n', by decide +kernel, rfl, ?_⟩
  intro before rest hsource
  have honly : ∀ i < source.length, source[i]? = some '\\' → i = 1 := by decide +kernel
  have hlength : before.length = 1 := by
    refine honly _ ?_ ?_
    · rw [hsource, List.length_append, List.length_cons]
      omega
    · rw [hsource, List.getElem?_append_right (Nat.le_refl _), Nat.sub_self]
      rfl
  have hbefore : before = source.take 1 := by rw [← hlength, hsource, List.take_left]
  rw [hbefore]
  decide +kernel

end BlockLang.Scan

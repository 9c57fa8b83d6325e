import BlockLang.Proofs.Alteration
import BlockLang.Proofs.Excerpts

/-! Integer literals are exact. A literal is read as the number that its digits stand for, up to 2^63, and
its code pushes that number, or its negation if a minus sign belongs to it. Where a literal may stand is
said by comparison with a zero in its place. -/

namespace BlockLang

open Grammar

namespace Machine

variable {m : Machine} {s : MachineState} {value : Int64} {rest : List Value}

theorem step_pushInt (h : m.program.instrs[s.ip]? = some (Instr.of .pushInt value)) :
    m.step s = .running { s with ip := s.ip + 1, stack := .int value :: s.stack } := by
  rw [step, h]
  rfl

theorem step_neg (h : m.program.instrs[s.ip]? = some (Instr.of .neg 0))
    (hs : s.stack = .int value :: rest) :
    m.step s = .running { s with ip := s.ip + 1, stack := .int (-value) :: rest } := by
  obtain ⟨ip, stack, slots, heap, output⟩ := s
  cases hs
  rw [step, h]
  rfl

section Code

variable {front code back : List Instr}

theorem getElem?_of_instrs {k : Nat} (hk : k < code.length)
    (hinstrs : m.program.instrs.toList = front ++ code ++ back) :
    m.program.instrs[front.length + k]? = code[k]? := by
  rw [← Array.getElem?_toList, hinstrs, List.append_assoc,
    List.getElem?_append_right (Nat.le_add_right _ _), Nat.add_sub_cancel_left,
    List.getElem?_append_left hk]

theorem loop_literal (hinstrs : m.program.instrs.toList = front ++ [Instr.of .pushInt value] ++ back)
    (hip : s.ip = front.length) :
    m.loop 1 s = .running { s with ip := front.length + 1, stack := .int value :: s.stack } := by
  have hat : m.program.instrs[s.ip]? = some (Instr.of .pushInt value) := by
    rw [hip]
    exact getElem?_of_instrs (k := 0) (by simp) hinstrs
  rw [loop, step_pushInt hat, hip]
  rfl

/-- A number and its negation are two steps, which push the negative number. -/
theorem loop_negated
    (hinstrs : m.program.instrs.toList = front ++ [Instr.of .pushInt value, Instr.of .neg 0] ++ back)
    (hip : s.ip = front.length) :
    m.loop 2 s = .running { s with ip := front.length + 2, stack := .int (-value) :: s.stack } := by
  have hfirst : m.program.instrs[s.ip]? = some (Instr.of .pushInt value) := by
    rw [hip]
    exact getElem?_of_instrs (k := 0) (by simp) hinstrs
  have hsecond : m.program.instrs[s.ip + 1]? = some (Instr.of .neg 0) := by
    rw [hip]
    exact getElem?_of_instrs (k := 1) (by simp) hinstrs
  rw [loop, step_pushInt hfirst]
  show m.loop 1 _ = _
  rw [loop, step_neg hsecond rfl, hip]
  rfl

/-- The negation of a number below 2^63 does not wrap around. -/
theorem toInt_neg_ofNat {n : Nat} (hn : n < magnitude) : (-Int64.ofNat n).toInt = -(n : Int) := by
  have hmagnitude : magnitude = 9223372036854775808 := by decide
  rw [Int64.neg_ofNat]
  exact Int64.toInt_ofInt_of_le (by omega) (by omega)

/-- The code of a literal, with or without a minus sign in front of it, pushes its value and does nothing
else. -/
theorem loop_numeral {signed : Bool} {n : Nat} (hn : Fits signed n)
    (hinstrs : m.program.instrs.toList = front ++ (Constant.numeral signed n).code ++ back)
    (hip : s.ip = front.length) :
    ∃ x : Int64, x.toInt = (if signed then -(n : Int) else n) ∧
      m.loop (Constant.numeral signed n).code.length s = .running
        { s with
          ip := (front ++ (Constant.numeral signed n).code).length
          stack := .int x :: s.stack } := by
  rw [List.length_append]
  cases signed with
  | false =>
      obtain hn | ⟨h, -⟩ := hn
      · rw [Constant.numeral_bare] at hinstrs ⊢
        exact ⟨Int64.ofNat n, Int64.toInt_ofNat_of_lt hn, loop_literal hinstrs hip⟩
      · cases h
  | true =>
      obtain hn | ⟨-, rfl⟩ := hn
      · rw [Constant.numeral_negated hn] at hinstrs ⊢
        exact ⟨-Int64.ofNat n, toInt_neg_ofNat hn, loop_negated hinstrs hip⟩
      · rw [Constant.numeral_least] at hinstrs ⊢
        exact ⟨Int64.minValue, by decide, loop_literal hinstrs hip⟩

end Code

end Machine

namespace Scan

variable {settings : Settings} {file : Int} {start middle stop : Cursor} {u v tokens : List Token}

/-- The scan gets from one place of a source to another one and reads some tokens on the way. -/
inductive Reaches (settings : Settings) (file : Int) : Cursor → List Token → Cursor → Prop where
  | here {cursor : Cursor} : Reaches settings file cursor [] cursor
  | step {cursor stop : Cursor} {t : Token} {u : List Token} :
      (next settings file cursor).outcome = .ok t → t.kind ≠ .eof →
      Reaches settings file (next settings file cursor).cursor u stop →
      Reaches settings file cursor (t :: u) stop

theorem length_lt_of_isLast {cursor : Cursor} (h : (next settings file cursor).isLast = false) :
    (next settings file cursor).cursor.rest.length < cursor.rest.length := by
  obtain ⟨gap, rest, hrest, -, ⟨rfl, hnext⟩ | htakes⟩ := next_takes settings file cursor.rest cursor.pos
  · rw [hnext] at h
    cases h
  · obtain ⟨lexeme, rest, kind, text, rfl, hne, -, -, hcursor⟩ := htakes
    have hlength := List.length_pos_iff.mpr hne
    rw [hrest, hcursor]
    simp only [List.length_append]
    omega

namespace Reaches

theorem append (h : Reaches settings file start u middle) (h' : Reaches settings file middle v stop) :
    Reaches settings file start (u ++ v) stop := by
  induction h with
  | here => exact h'
  | step hok hkind _ ih => exact .step hok hkind (ih h')

theorem inner (h : Reaches settings file start u stop) : ∀ t ∈ u, t.kind ≠ .eof := by
  induction h with
  | here => exact List.forall_mem_nil _
  | step _ hkind _ ih => exact List.forall_mem_cons.mpr ⟨hkind, ih⟩

theorem single {t : Token} (h : next settings file start = { outcome := .ok t, cursor := stop })
    (ht : t.kind ≠ .eof) : Reaches settings file start [t] stop := by
  refine .step (by rw [h]) ht ?_
  rw [h]
  exact .here

/-- A scan that gets to a place yields what it has read on the way and then what it yields from there. -/
theorem collect_eq (h : Reaches settings file start u stop) {count : Nat}
    (hcount : start.rest.length < count) :
    ∃ more, stop.rest.length < more ∧
      (collect (stepsFrom settings file count start)).2 =
        (collect (stepsFrom settings file more stop)).2.map (u ++ ·) := by
  induction h generalizing count with
  | @here cursor =>
      refine ⟨count, hcount, ?_⟩
      cases (collect (stepsFrom settings file count cursor)).2 <;> rfl
  | @step cursor stop t u hok hkind _ ih =>
      have hlast : (next settings file cursor).isLast = false := by
        rw [isLast_of_ok hok]
        exact beq_false_of_ne hkind
      obtain ⟨count, rfl⟩ : ∃ k, count = k + 1 := ⟨count - 1, by omega⟩
      have hless : (next settings file cursor).cursor.rest.length < count := by
        have hshorter := length_lt_of_isLast hlast
        omega
      obtain ⟨more, hmore, heq⟩ := ih hless
      refine ⟨more, hmore, ?_⟩
      rw [stepsFrom, if_neg (by rw [hlast]; exact Bool.false_ne_true), collect, hok]
      show (collect _).2.map _ = _
      rw [heq]
      cases (collect (stepsFrom settings file more stop)).2 <;> rfl

theorem tokenize_eq {source : List Char} (h : Reaches settings file { rest := source } u stop) :
    ∃ more, stop.rest.length < more ∧ (tokenize settings file source).2 =
      (collect (stepsFrom settings file more stop)).2.map (u ++ ·) :=
  h.collect_eq (Nat.lt_succ_self _)

/-- The tokens of a source begin with the ones that have been read on the way to any place. -/
theorem exists_append {source : List Char} (h : Reaches settings file { rest := source } u stop)
    (htokens : (tokenize settings file source).2 = .ok tokens) : ∃ w, tokens = u ++ w := by
  obtain ⟨more, -, heq⟩ := h.tokenize_eq
  rw [htokens] at heq
  cases hrest : (collect (stepsFrom settings file more stop)).2 with
  | error e =>
      rw [hrest] at heq
      cases heq
  | ok w =>
      rw [hrest] at heq
      exact ⟨w, Except.ok.inj heq⟩

/-- A scan that gets to an error ends with it. -/
theorem tokenize_error {source : List Char} (h : Reaches settings file { rest := source } u stop)
    {e : LexicalError} (he : (next settings file stop).outcome = .error e) :
    (tokenize settings file source).2 = .error e := by
  obtain ⟨more, hmore, heq⟩ := h.tokenize_eq
  obtain ⟨more, rfl⟩ : ∃ k, more = k + 1 := ⟨more - 1, by omega⟩
  have hlast : (next settings file stop).isLast = false := by rw [Scanned.isLast, he]
  rw [heq, stepsFrom, if_neg (by rw [hlast]; exact Bool.false_ne_true), collect, he]
  rfl

end Reaches

section Digits

variable {gap digits behind : List Char} {pos : Position}

/-- The digits of a number up to 2^63 are read as its numeral, without zeros in front. -/
theorem reaches_digits (hgap : Gap (settings.feature .comments) (digits ++ behind) gap) (hne : digits ≠ [])
    (hdigits : ∀ c ∈ digits, c.isDigit = true) (hbehind : ∀ c ∈ behind.head?, isNamePart c = false)
    (hvalue : Nat.ofDigitChars 10 digits 0 ≤ magnitude) :
    ∃ t after, Reaches settings file ⟨gap ++ (digits ++ behind), pos⟩ [t] ⟨behind, after⟩ ∧
      t.kind = .number ∧ t.text = toString (Nat.ofDigitChars 10 digits 0) := by
  have hbound : ¬Text.maxUnsigned64 < Nat.ofDigitChars 10 digits 0 :=
    Nat.not_lt.mpr (Nat.le_trans hvalue (by decide))
  have hread := Text.readUnsigned_of_isDigit hne hdigits
  rw [if_neg hbound] at hread
  have hnext : next settings file ⟨gap ++ (digits ++ behind), pos⟩ =
      { outcome := .ok (span file (pos.advance gap) ((pos.advance gap).advance digits) .number
          (toString (Nat.ofDigitChars 10 digits 0)))
        cursor := ⟨behind, (pos.advance gap).advance digits⟩ } := by
    rw [next_of_gap hgap, next_digits hne hdigits, number_of_ok hdigits hbehind hread hvalue]
  exact ⟨_, _, .single hnext nofun, rfl, rfl⟩

/-- Digits of a number above 2^63 are an error. -/
theorem next_digits_outOfRange (hgap : Gap (settings.feature .comments) (digits ++ behind) gap)
    (hne : digits ≠ []) (hdigits : ∀ c ∈ digits, c.isDigit = true)
    (hbehind : ∀ c ∈ behind.head?, isNamePart c = false)
    (hvalue : magnitude < Nat.ofDigitChars 10 digits 0) :
    ∃ e, (next settings file ⟨gap ++ (digits ++ behind), pos⟩).outcome = .error e ∧
      e.cause = .numberOutOfRange (String.ofList digits) := by
  have hread := Text.readUnsigned_of_isDigit hne hdigits
  obtain ⟨⟨htake, hdrop⟩, hnone, hrest⟩ := digits_split hdigits hbehind
  rw [next_of_gap hgap, next_digits hne hdigits]
  simp only [number, htake, hdrop, hnone, hrest, List.append_nil, hread]
  by_cases hlarge : Text.maxUnsigned64 < Nat.ofDigitChars 10 digits 0
  · simp only [hlarge, if_true]
    exact ⟨_, rfl, rfl⟩
  · have hvalue' : Nat.pow 2 63 < Nat.ofDigitChars 10 digits 0 := hvalue
    simp only [hlarge, if_false, hvalue', if_true]
    exact ⟨_, rfl, rfl⟩

end Digits

end Scan

/-- A program has the tables of another one and, in one place, other code in place of `old`. The machine
that runs it gets through that code from every state in front of it; an integer is pushed, and nothing
else is changed. -/
def Program.Puts (p₀ : Program) (old : List Instr) (p : Program) (value : Int) : Prop :=
  p.strings = p₀.strings ∧ p.labelCount = p₀.labelCount ∧ p.slotCount = p₀.slotCount ∧
    ∃ front new back m start, p₀.instrs.toList = front ++ old ++ back ∧
      p.instrs.toList = front ++ new ++ back ∧ Machine.new p = .ok (m, start) ∧
      ∀ s : MachineState, s.ip = front.length →
        ∃ x : Int64, x.toInt = value ∧ m.loop new.length s = .running
          { s with ip := (front ++ new).length, stack := .int x :: s.stack }

/-- No numeral has longer code than zero with the same sign. -/
theorem Constant.length_numeral_le {signed : Bool} (n : Nat) :
    (numeral signed n).code.length ≤ (numeral signed 0).code.length := by
  cases signed with
  | false =>
      rw [numeral_bare, numeral_bare]
      exact Nat.le_refl 1
  | true =>
      rw [@numeral_negated 0 (by decide)]
      by_cases hn : n < magnitude
      · rw [numeral_negated hn]
        exact Nat.le_refl 2
      · rw [numeral, if_pos rfl, if_neg hn]
        exact Nat.le_succ 1

namespace Compilation

variable {settings : Settings} {name : String} {source : List Char} {u w : List Token} {t : Token}

theorem compiled_lexical {e : LexicalError} (h : (Scan.tokenize settings 0 source).2 = .error e) :
    (compiled settings name source).result = .error (.lexical e) := by
  have hparsed : (parsed settings name source).result = .error (.lexical e) := by
    simp only [parsed, h]
  rw [compiled_result, resolved_result, typed_result, hparsed]
  rfl

theorem compiled_grammatical {tokens : List Token} {e : SyntaxError}
    (h : (Scan.tokenize settings 0 source).2 = .ok tokens) (he : parse tokens = .error e) :
    (compiled settings name source).result = .error (.grammatical e) := by
  rw [compiled_of_tokens h, ofTokens, he]
  rfl

/-- A number of a source stands between the other tokens, of which the last is the end marker. -/
theorem placed_of_tokenize (hu : ∀ s ∈ u, s.kind ≠ .eof) (ht : t.kind = .number)
    (h : (Scan.tokenize settings 0 source).2 = .ok (u ++ t :: w)) : Placed u t w := by
  have hproper := Scan.proper_of_tokenize h
  refine ⟨hu, ht, ?_, fun s hs => hproper s ?_⟩
  · obtain ⟨last, hlast, hkind⟩ := Scan.tokenize_ends h
    rw [List.getLast?_append, List.getLast?_cons, Option.some_or] at hlast
    cases hw : w.getLast? with
    | some s =>
        rw [hw] at hlast
        cases hlast
        exact ⟨s, rfl, hkind⟩
    | none =>
        rw [hw] at hlast
        cases hlast
        exact absurd (ht.symm.trans hkind) (by decide)
  · obtain hs | hs := List.mem_append.mp hs
    · exact List.mem_append_left _ hs
    · exact List.mem_append_right _ (List.mem_cons_of_mem _ hs)

/-- If tokens with a zero in a place have code, so has a source with any other number there. -/
theorem compiled_withNumber (name : String) {signed : Bool} {n : Nat} (hplaced : Placed u t w)
    (htokens : (Scan.tokenize settings 0 source).2 = .ok (withNumber u t w n)) (hn : Fits signed n)
    (hu : signed = true → Negated u) {p₀ : Program} (hp₀ : ofTokens (withNumber u t w 0) = .ok p₀) :
    ∃ p, (compiled settings name source).result = .ok p ∧
      p₀.Puts (Constant.numeral signed 0).code p (if signed then -(n : Int) else n) := by
  have hzero : Fits signed 0 := .inl (by decide)
  obtain ⟨q, hq, hpatched⟩ := hplaced.ofTokens_alter hzero hn hu (Constant.length_numeral_le n) hp₀
  obtain ⟨p, hcompiled, hpatched⟩ : ∃ p, (compiled settings name source).result = .ok p ∧
      p₀.Patched (Constant.numeral signed 0).code (Constant.numeral signed n).code 1 p := by
    refine ⟨_, ?_, hpatched.withHash (Digest.ofSource source)⟩
    rw [compiled_of_tokens htokens, hq]
    rfl
  obtain ⟨program, body, slots, c, m, start, -, -, -, -, hnew, hprogram, -⟩ := compiled_carries hcompiled
  obtain ⟨front, back, hold, hinstrs⟩ := hpatched.instrs.exists_of_one rfl
  have hloaded : m.program.instrs.toList = front ++ (Constant.numeral signed n).code ++ back := by
    rw [hprogram]
    exact hinstrs
  exact ⟨p, hcompiled, hpatched.strings, hpatched.labels, hpatched.slots, front, _, back, m, start, hold,
    hinstrs, hnew, fun s hs => Machine.loop_numeral hn hloaded hs⟩

/-- Integer literals are exact. Let the scan of a source get to digits, which stand for a number, and let
no name go on behind them. If the number is greater than 2^63, the scan fails. Otherwise there is a
token for the number, and in whatever place it stands:

* A number below 2^63 is compiled wherever a zero is, and pushed where the zero is pushed.
* The number 2^63 is accepted wherever a zero is and a minus sign in front of an operand is right before
  it, and nowhere else; elsewhere it is an error of grammar.
* Behind such a sign every number is compiled wherever a zero is, and its negation is pushed where that
  of the zero is.

What is pushed is the number or its negation itself, as an integer without bounds. -/
theorem integer_literals_exact {gap digits behind : List Char} {pos : Position}
    (hreach : Scan.Reaches settings 0 { rest := source } u ⟨gap ++ (digits ++ behind), pos⟩)
    (hgap : Scan.Gap (settings.feature .comments) (digits ++ behind) gap) (hne : digits ≠ [])
    (hdigits : ∀ c ∈ digits, c.isDigit = true)
    (hbehind : ∀ c ∈ behind.head?, Scan.isNamePart c = false) :
    let v := Nat.ofDigitChars 10 digits 0
    (Nat.pow 2 63 < v →
      ∃ e, (Scan.tokenize settings 0 source).2 = .error e ∧
        e.cause = .numberOutOfRange (String.ofList digits) ∧
        (compiled settings name source).result = .error (.lexical e)) ∧
    (v ≤ Nat.pow 2 63 →
      ∃ t stop, Scan.Reaches settings 0 { rest := source } (u ++ [t]) ⟨behind, stop⟩ ∧
        t.kind = .number ∧ t.text = toString v ∧
        ∀ tokens, (Scan.tokenize settings 0 source).2 = .ok tokens → ∃ w, tokens = u ++ t :: w ∧
          (v < Nat.pow 2 63 → ∀ p₀, ofTokens (withNumber u t w 0) = .ok p₀ →
            ∃ p, (compiled settings name source).result = .ok p ∧
              p₀.Puts [Instr.of .pushInt 0] p v) ∧
          (v = Nat.pow 2 63 →
            ((∃ tree, parse tokens = .ok tree) ↔
              Negated u ∧ ∃ tree, parse (withNumber u t w 0) = .ok tree) ∧
            (¬Negated u → ∃ e, parse tokens = .error e ∧
              (compiled settings name source).result = .error (.grammatical e))) ∧
          (Negated u → ∀ p₀, ofTokens (withNumber u t w 0) = .ok p₀ →
            ∃ p, (compiled settings name source).result = .ok p ∧
              p₀.Puts [Instr.of .pushInt 0, Instr.of .neg 0] p (-(v : Int)))) := by
  intro v
  refine ⟨fun hlarge => ?_, fun hle => ?_⟩
  · obtain ⟨e, he, hcause⟩ := Scan.next_digits_outOfRange hgap hne hdigits hbehind hlarge
    have htokens := hreach.tokenize_error he
    exact ⟨e, htokens, hcause, compiled_lexical htokens⟩
  obtain ⟨t, stop, hnumber, hkind, htext⟩ := Scan.reaches_digits hgap hne hdigits hbehind hle
  have hpassed := hreach.append hnumber
  refine ⟨t, stop, hpassed, hkind, htext, fun tokens htokens => ?_⟩
  obtain ⟨w, hw⟩ := hpassed.exists_append htokens
  have hsplit : tokens = u ++ t :: w := by rw [hw, List.append_assoc, List.singleton_append]
  have hplaced : Placed u t w := placed_of_tokenize hreach.inner hkind (hsplit ▸ htokens)
  obtain rfl : tokens = withNumber u t w v := hsplit.trans (withNumber_self htext).symm
  refine ⟨w, hsplit, fun hlt p₀ hp₀ => ?_, fun heq => ?_, fun hnegated p₀ hp₀ => ?_⟩
  · have hfits : Fits false v := .inl hlt
    have hcompiled := compiled_withNumber name hplaced htokens hfits nofun hp₀
    rwa [Constant.numeral_bare] at hcompiled
  · rw [heq]
    refine ⟨hplaced.parse_magnitude_iff, fun hnot => ?_⟩
    cases hparse : parse (withNumber u t w (Nat.pow 2 63)) with
    | ok tree => exact absurd (hplaced.negated_of_parse hparse) hnot
    | error e =>
        rw [heq] at htokens
        exact ⟨e, rfl, compiled_grammatical htokens hparse⟩
  · have hfits : Fits true v := (Nat.lt_or_eq_of_le hle).imp_right fun heq => ⟨rfl, heq⟩
    have hcompiled := compiled_withNumber name hplaced htokens hfits (fun _ => hnegated) hp₀
    rwa [@Constant.numeral_negated 0 (by decide)] at hcompiled

/-- The least integer, with zeros in front of its digits and a comment behind its sign. -/
theorem integer_literals_exact_least :
    let source := "- // least\n009223372036854775808".toList
    let sign : Token := { kind := .minus, line := 1, column := 1, len := 1 }
    let number : Token :=
      { kind := .number, text := "9223372036854775808", line := 2, column := 1, len := 21 }
    let eof : Token := { line := 2, column := 22 }
    Negated [sign] ∧ ∃ p₀ p, ofTokens (withNumber [sign] number [eof] 0) = .ok p₀ ∧
      (compiled {} "least" source).result = .ok p ∧
      p₀.Puts [Instr.of .pushInt 0, Instr.of .neg 0] p (-9223372036854775808) := by
  intro source sign number eof
  let gap := " // least\n".toList
  let digits := "009223372036854775808".toList
  have hnegated : Negated [sign] := ⟨[], sign, rfl, rfl, rfl⟩
  have hreach : Scan.Reaches {} 0 { rest := source } [sign] ⟨gap ++ (digits ++ []), ⟨1, 1, 2⟩⟩ :=
    .single rfl nofun
  have hgap : Scan.Gap (({} : Settings).feature .comments) (digits ++ []) gap :=
    .blank (by decide) (@Scan.Gap.comment _ _ " least".toList ['\n'] rfl (by decide +kernel)
      (by rintro c ⟨⟩; rfl) (.blank (by decide) .nil))
  have hall : digits.all Char.isDigit = true := by decide +kernel
  have hvalue : Nat.ofDigitChars 10 digits 0 = 9223372036854775808 := by decide +kernel
  have hscan : (Scan.tokenize {} 0 source).2 = .ok [sign, number, eof] := by
    have hsome : (Scan.tokenize {} 0 source).2.toOption = some [sign, number, eof] := by decide +kernel
    cases htokens : (Scan.tokenize {} 0 source).2 with
    | error e =>
        rw [htokens] at hsome
        cases hsome
    | ok tokens =>
        rw [htokens] at hsome
        exact congrArg Except.ok (Option.some.inj hsome)
  have hok : (ofTokens (withNumber [sign] number [eof] 0)).isOk = true := by decide +kernel
  obtain ⟨p₀, hp₀⟩ := ok_of_isOk hok
  obtain ⟨-, hexact⟩ := @integer_literals_exact {} "least" source [sign] gap digits [] ⟨1, 1, 2⟩ hreach hgap
    (by decide +kernel) (List.all_eq_true.mp hall) (by rintro c ⟨⟩)
  rw [hvalue] at hexact
  obtain ⟨t, stop, -, -, -, htokens⟩ := hexact (by decide)
  obtain ⟨w, hw, -, -, hputs⟩ := htokens _ hscan
  cases hw
  obtain ⟨p, hp, hputs⟩ := hputs hnegated p₀ hp₀
  exact ⟨hnegated, p₀, p, hp₀, hp, hputs⟩

end Compilation

end BlockLang

import BlockLang.Token.Scan
import Mathlib.Tactic.Basic

/-! Numerals. The decimal numeral of a number is read as the number, and the numbers among the tokens
of a source are written as numerals. -/

namespace BlockLang

namespace Text

theorem decimalValue?_of_isDigit {c : Char} (h : c.isDigit = true) :
    decimalValue? c = some (c.toNat - '0'.toNat) := by
  rw [Char.isDigit, Bool.and_eq_true, decide_eq_true_iff, decide_eq_true_iff] at h
  exact if_pos h

theorem le_ofDigitChars (cs : List Char) (value : Nat) : value ≤ Nat.ofDigitChars 10 cs value := by
  induction cs generalizing value with
  | nil => exact Nat.le_of_eq Nat.ofDigitChars_nil.symm
  | cons c rest ih =>
      rw [Nat.ofDigitChars_cons]
      have hrest := ih (10 * value + (c.toNat - '0'.toNat))
      omega

theorem readDigits_of_isDigit {bound : Nat} (cs : List Char) {value : Nat}
    (hdigits : ∀ c ∈ cs, c.isDigit = true) (hbound : Nat.ofDigitChars 10 cs value ≤ bound) :
    readDigits bound value cs = .ok (Nat.ofDigitChars 10 cs value) := by
  induction cs generalizing value with
  | nil => rw [readDigits, Nat.ofDigitChars_nil]
  | cons c rest ih =>
      rw [Nat.ofDigitChars_cons] at hbound ⊢
      have hvalue := Nat.le_trans (le_ofDigitChars rest _) hbound
      rw [readDigits, decimalValue?_of_isDigit (hdigits c List.mem_cons_self)]
      simp only [Nat.mul_comm value 10, Nat.not_lt.mpr hvalue, if_false]
      exact ih (fun d hd => hdigits d (List.mem_cons_of_mem _ hd)) hbound

/-- Digits are refused for their value only. -/
theorem readDigits_outOfRange {bound : Nat} (cs : List Char) {value : Nat}
    (hdigits : ∀ c ∈ cs, c.isDigit = true) (hvalue : value ≤ bound)
    (hbound : bound < Nat.ofDigitChars 10 cs value) :
    readDigits bound value cs = .error .outOfRange := by
  induction cs generalizing value with
  | nil =>
      rw [Nat.ofDigitChars_nil] at hbound
      omega
  | cons c rest ih =>
      rw [Nat.ofDigitChars_cons] at hbound
      rw [readDigits, decimalValue?_of_isDigit (hdigits c List.mem_cons_self)]
      simp only [Nat.mul_comm value 10]
      split
      · rfl
      · exact ih (fun d hd => hdigits d (List.mem_cons_of_mem _ hd)) (by omega) hbound

/-- Digits are read as the number that they stand for, unless that is too large. -/
theorem readUnsigned_of_isDigit {cs : List Char} (hne : cs ≠ []) (hdigits : ∀ c ∈ cs, c.isDigit = true) :
    readUnsigned cs =
      if maxUnsigned64 < Nat.ofDigitChars 10 cs 0 then .error .outOfRange
      else .ok (Nat.ofDigitChars 10 cs 0) := by
  rw [readUnsigned, List.isEmpty_eq_false_iff.mpr hne, if_neg Bool.false_ne_true]
  by_cases hlarge : maxUnsigned64 < Nat.ofDigitChars 10 cs 0
  · rw [if_pos hlarge]
    exact readDigits_outOfRange cs hdigits (Nat.zero_le _) hlarge
  · rw [if_neg hlarge]
    exact readDigits_of_isDigit cs hdigits (Nat.not_lt.mp hlarge)

theorem toString_injective {n m : Nat} (h : toString n = toString m) : n = m := by
  have hdigits : Nat.toDigits 10 n = Nat.toDigits 10 m := by
    rw [← Nat.toList_repr, ← Nat.toList_repr]
    exact congrArg String.toList h
  rw [← @Nat.ofDigitChars_ten_toDigits n, hdigits, Nat.ofDigitChars_ten_toDigits]

theorem isDigit_of_mem_toString {n : Nat} {c : Char} (h : c ∈ (toString n).toList) :
    c.isDigit = true := by
  have hlist : (toString n).toList = Nat.toDigits 10 n := Nat.toList_repr
  rw [hlist] at h
  exact Nat.isDigit_of_mem_toDigits (by decide) (by decide) h

theorem readUnsigned_toString {n : Nat} (h : n ≤ maxUnsigned64) :
    readUnsigned (toString n).toList = .ok n := by
  have hlist : (toString n).toList = Nat.toDigits 10 n := Nat.toList_repr
  have hvalue : Nat.ofDigitChars 10 (toString n).toList 0 = n := by
    rw [hlist, Nat.ofDigitChars_ten_toDigits]
  have hne : (toString n).toList ≠ [] := by
    rw [hlist]
    exact Nat.toDigits_ne_nil
  rw [readUnsigned_of_isDigit hne fun c => isDigit_of_mem_toString, hvalue, if_neg (Nat.not_lt.mpr h)]

/-- The numeral of a number is read as a signed one if the number stays below 2^63. -/
theorem readSigned_toString {n : Nat} (h : n ≤ maxUnsigned64) :
    readSigned (toString n).toList =
      if Nat.pow 2 63 ≤ n then .error .outOfRange else .ok (n : Int) := by
  have hdigit : ∀ c ∈ (toString n).toList, c.isDigit = true := fun c => isDigit_of_mem_toString
  have hpositive : readSigned.positive (toString n).toList =
      if Nat.pow 2 63 ≤ n then .error .outOfRange else .ok (n : Int) := by
    rw [readSigned.positive, readUnsigned_toString h]
    rfl
  rw [readSigned.eq_def]
  split
  case h_1 digits heq =>
    rw [heq] at hdigit
    exact absurd (hdigit '-' List.mem_cons_self) (by decide)
  case h_2 digits heq =>
    rw [heq] at hdigit
    exact absurd (hdigit '+' List.mem_cons_self) (by decide)
  case h_3 => exact hpositive

end Text

/-- A number token is the numeral of a number up to 2^63. -/
def Token.Proper (t : Token) : Prop := t.kind = .number → ∃ n ≤ Nat.pow 2 63, t.text = toString n

theorem Token.Proper.of_kind {t : Token} (h : t.kind ≠ .number) : t.Proper :=
  fun h' => absurd h' h

namespace Scan

variable {settings : Settings} {file : Int} {start : Position} {t : Token} {cs : List Char}

/-- A word is a keyword, or a name that keeps its text. -/
theorem word_cases (h : (word file start cs).outcome = .ok t) :
    t.kind ∈ TokenKind.keywords.map Prod.snd ∨
      (t.kind = .ident ∧ t.text = String.ofList (cs.takeWhile isNamePart)) := by
  rw [word] at h
  split at h
  case h_1 kind hkind =>
    cases h
    obtain ⟨before, behind, hkeywords, -⟩ := List.lookup_eq_some_iff.mp hkind
    have hmem : (String.ofList (cs.takeWhile isNamePart), kind) ∈ TokenKind.keywords := by
      rw [hkeywords]
      exact List.mem_append_right _ List.mem_cons_self
    exact .inl (List.mem_map_of_mem hmem)
  case h_2 =>
    cases h
    exact .inr ⟨rfl, rfl⟩

/-- A number has the numeral of its value for a text. -/
theorem number_cases (h : (number file start cs).outcome = .ok t) :
    t.kind = .number ∧ ∃ n ≤ Nat.pow 2 63, t.text = toString n := by
  rw [number] at h
  split at h
  case h_1 value _ =>
    split at h
    case isTrue => cases h
    case isFalse hvalue =>
      cases h
      exact ⟨rfl, value, Nat.not_lt.mp hvalue, rfl⟩
  case h_2 => cases h
  case h_3 => cases h

theorem kind_of_sign {c : Char} {single double : TokenKind}
    (h : (sign file start c cs single double).outcome = .ok t) : t.kind = single ∨ t.kind = double := by
  unfold sign at h
  split at h
  · cases h
    exact .inr rfl
  · cases h
    exact .inl rfl

theorem kind_of_string {escapes : Bool} (h : (string escapes file start cs).outcome = .ok t) :
    t.kind = .string := by
  simp only [string] at h
  split at h
  · cases h
    rfl
  · cases h

/-- A step yields a word, a number, or a token that is neither. -/
theorem next_cases {cursor : Cursor} (h : (next settings file cursor).outcome = .ok t) :
    (∃ start cs, (word file start cs).outcome = .ok t) ∨ (∃ start cs, (number file start cs).outcome = .ok t) ∨
      (t.kind ≠ .ident ∧ t.kind ≠ .number) := by
  have hother : ∀ {kind : TokenKind}, t.kind = kind → kind ≠ .ident ∧ kind ≠ .number →
      t.kind ≠ .ident ∧ t.kind ≠ .number := fun h => h ▸ id
  rw [next] at h
  split at h
  rename_i rest start hskip
  split at h
  · cases h
    exact .inr (.inr ⟨nofun, nofun⟩)
  · rename_i c rest
    split at h
    · exact .inl ⟨_, _, h⟩
    · split at h
      · exact .inr (.inl ⟨_, _, h⟩)
      · refine .inr (.inr ?_)
        extract_lets stop one fail at h
        have hone : ∀ {kind}, (one kind).outcome = .ok t → t.kind = kind := by
          rintro kind ⟨⟩
          rfl
        have hfail : ∀ {cause kind}, (fail cause kind).outcome ≠ .ok t := nofun
        split at h
        case h_10 | h_11 | h_12 =>
          rcases kind_of_sign h with hkind | hkind
          · exact hother hkind ⟨nofun, nofun⟩
          · exact hother hkind ⟨nofun, nofun⟩
        case h_13 =>
          split at h
          · rcases kind_of_sign h with hkind | hkind
            · exact hother hkind ⟨nofun, nofun⟩
            · exact hother hkind ⟨nofun, nofun⟩
          · exact absurd h hfail
        case h_14 | h_15 =>
          split at h
          · exact hother (hone h) ⟨nofun, nofun⟩
          · exact absurd h hfail
        case h_16 => exact hother (kind_of_string h) ⟨nofun, nofun⟩
        case h_17 => exact absurd h hfail
        all_goals exact hother (hone h) ⟨nofun, nofun⟩

theorem proper_of_next {cursor : Cursor} (h : (next settings file cursor).outcome = .ok t) :
    t.Proper := by
  have htable : ∀ kind ∈ TokenKind.keywords.map Prod.snd, kind ≠ .number := by decide
  rcases next_cases h with ⟨start, cs, hword⟩ | ⟨start, cs, hnumber⟩ | ⟨-, hkind⟩
  · rcases word_cases hword with hkeyword | ⟨hname, -⟩
    · exact .of_kind (htable _ hkeyword)
    · exact .of_kind (hname ▸ nofun)
  · exact fun _ => (number_cases hnumber).2
  · exact .of_kind hkind

theorem next_of_stepsFrom {count : Nat} {cursor : Cursor} :
    ∀ step ∈ stepsFrom settings file count cursor, ∃ cursor', step = next settings file cursor' := by
  induction count generalizing cursor with
  | zero => exact fun step hmem => absurd hmem List.not_mem_nil
  | succ count ih =>
      intro step hmem
      simp only [stepsFrom] at hmem
      split at hmem
      · exact ⟨cursor, List.mem_singleton.mp hmem⟩
      · rcases List.mem_cons.mp hmem with rfl | hmem
        · exact ⟨cursor, rfl⟩
        · exact ih step hmem

/-- Every token of a scan is that of one of its steps. -/
theorem step_of_collect {steps : List Scanned} {tokens : List Token} (h : (collect steps).2 = .ok tokens)
    {t : Token} (ht : t ∈ tokens) : ∃ step ∈ steps, step.outcome = .ok t := by
  induction steps generalizing tokens with
  | nil =>
      cases h
      cases ht
  | cons step steps ih =>
      rw [collect] at h
      cases hstep : step.outcome with
      | error e =>
          rw [hstep] at h
          cases h
      | ok token =>
          rw [hstep] at h
          cases hrest : (collect steps).2 with
          | error e =>
              simp only [hrest] at h
              cases h
          | ok others =>
              simp only [hrest] at h
              cases h
              obtain rfl | ht := List.mem_cons.mp ht
              · exact ⟨step, List.mem_cons_self, hstep⟩
              · obtain ⟨step', hmem, hstep'⟩ := ih hrest ht
                exact ⟨step', List.mem_cons_of_mem _ hmem, hstep'⟩

/-- Every token of a source is the token of a step somewhere. -/
theorem next_of_tokenize {source : List Char} {tokens : List Token}
    (h : (tokenize settings file source).2 = .ok tokens) :
    ∀ t ∈ tokens, ∃ cursor, (next settings file cursor).outcome = .ok t := by
  intro t ht
  obtain ⟨step, hmem, hstep⟩ := step_of_collect h ht
  obtain ⟨cursor, rfl⟩ := next_of_stepsFrom step hmem
  exact ⟨cursor, hstep⟩

/-- The tokens of every source are proper. -/
theorem proper_of_tokenize {source : List Char} {tokens : List Token}
    (h : (tokenize settings file source).2 = .ok tokens) : ∀ t ∈ tokens, t.Proper := by
  intro t ht
  obtain ⟨cursor, hstep⟩ := next_of_tokenize h t ht
  exact proper_of_next hstep

end Scan

end BlockLang

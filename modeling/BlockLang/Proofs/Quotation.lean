import BlockLang.Text.Quoted
import Mathlib.Data.List.Basic

/-! Quoted text can be read back. A reader takes one code point at a time, each from its own text or from one of
its escapes, and knows the closing quote from all of them. So a quoted text tells where it ends, no two texts are
quoted alike, and none has a line end. -/

namespace BlockLang.Text

/-- The number that hexadecimal digits stand for. -/
def readHex (digits : List Char) : Nat := digits.foldl (fun n c => 16 * n + (hexValue? c).getD 0) 0

theorem hexValue?_hexDigit : ∀ n < 16, hexValue? (hexDigit n) = some n := by decide

theorem length_hexDigits (width n : Nat) : (hexDigits width n).length = width := by
  induction width generalizing n with
  | zero => rfl
  | succ width ih => simp [hexDigits, ih]

theorem readHex_hexDigits {width n : Nat} (h : n < Nat.pow 16 width) : readHex (hexDigits width n) = n := by
  induction width generalizing n with
  | zero =>
      obtain rfl : n = 0 := Nat.lt_one_iff.mp h
      rfl
  | succ width ih =>
      have hfront : n / 16 < Nat.pow 16 width := Nat.div_lt_of_lt_mul (by rwa [Nat.mul_comm])
      have hlast : hexValue? (hexDigit (n % 16)) = some (n % 16) :=
        hexValue?_hexDigit _ (Nat.mod_lt n (by decide))
      have hread : readHex (hexDigits (width + 1) n) = 16 * readHex (hexDigits width (n / 16)) + n % 16 := by
        rw [readHex, hexDigits, List.foldl_append, ← readHex, List.foldl_cons, List.foldl_nil, hlast, Option.getD_some]
      rw [hread, ih hfront, Nat.div_add_mod]

theorem newline_notMem_hexDigits (width n : Nat) : '\n' ∉ hexDigits width n := by
  have hdigit : ∀ n < 16, hexDigit n ≠ '\n' := by decide
  induction width generalizing n with
  | zero => exact List.not_mem_nil
  | succ width ih =>
      rw [hexDigits, List.mem_append, List.mem_singleton, not_or]
      exact ⟨ih (n / 16), (hdigit _ (Nat.mod_lt n (by decide))).symm⟩

/-- The letters behind a backslash, with the code points that they stand for. -/
def shortEscapes : List (Char × Char) :=
  [('a', '\x07'), ('b', '\x08'), ('f', '\x0c'), ('n', '\n'), ('r', '\r'), ('t', '\t'), ('v', '\x0b'), ('\\', '\\'),
    ('"', '"')]

theorem mem_shortEscapes {c letter : Char} (h : shortEscape? c = some letter) : (letter, c) ∈ shortEscapes := by
  unfold shortEscape? at h
  split at h
  case h_10 => cases h
  all_goals
    rename_i heq
    rw [← Char.ofNat_toNat c, heq]
    cases h
    decide

/-- Reads one code point of a quoted text, or nothing at its closing quote. -/
def readQuoted : List Char → Option (Char × List Char)
  | [] => none
  | '"' :: _ => none
  | '\\' :: [] => none
  | '\\' :: letter :: rest =>
    match letter with
    | 'x' => some (Char.ofNat (readHex (rest.take 2)), rest.drop 2)
    | 'u' => some (Char.ofNat (readHex (rest.take 4)), rest.drop 4)
    | 'U' => some (Char.ofNat (readHex (rest.take 8)), rest.drop 8)
    | _ => (shortEscapes.lookup letter).map fun c => (c, rest)
  | c :: rest => some (c, rest)

theorem readQuoted_cons {c : Char} {rest : List Char} (hquote : c ≠ '"') (hslash : c ≠ '\\') :
    readQuoted (c :: rest) = some (c, rest) := by
  rw [readQuoted]
  · exact hquote
  · exact fun h => absurd h hslash
  · exact fun _ _ h => absurd h hslash

theorem readQuoted_letter {c letter : Char} {rest : List Char} (h : (letter, c) ∈ shortEscapes) :
    readQuoted ('\\' :: letter :: rest) = some (c, rest) := by
  simp only [shortEscapes, List.mem_cons, Prod.mk.injEq, List.not_mem_nil, or_false] at h
  rcases h with ⟨rfl, rfl⟩ | ⟨rfl, rfl⟩ | ⟨rfl, rfl⟩ | ⟨rfl, rfl⟩ | ⟨rfl, rfl⟩ | ⟨rfl, rfl⟩ | ⟨rfl, rfl⟩ | ⟨rfl, rfl⟩ |
    ⟨rfl, rfl⟩
  all_goals rfl

theorem toNat_lt_pow (c : Char) : c.toNat < Nat.pow 16 8 := by
  have hvalid : c.toNat < 0x110000 := by
    have hc := c.valid
    simp only [UInt32.isValidChar, Nat.isValidChar] at hc
    simp only [Char.toNat]
    omega
  exact Nat.lt_trans hvalid (by decide)

/-- A quoted code point is read back, whatever follows it. -/
theorem readQuoted_quoteChar (c : Char) (rest : List Char) : readQuoted (quoteChar c ++ rest) = some (c, rest) := by
  have hnumeral : ∀ width, c.toNat < Nat.pow 16 width →
      some (Char.ofNat (readHex ((hexDigits width c.toNat ++ rest).take width)),
        (hexDigits width c.toNat ++ rest).drop width) = some (c, rest) := by
    intro width h
    have hlength := length_hexDigits width c.toNat
    rw [List.take_left' hlength, List.drop_left' hlength, readHex_hexDigits h, Char.ofNat_toNat]
  rw [quoteChar]
  split
  case h_1 letter h => exact readQuoted_letter (mem_shortEscapes h)
  case h_2 h =>
    split_ifs with hprint hbyte hshort
    · refine readQuoted_cons ?_ ?_
      · rintro rfl
        cases h
      · rintro rfl
        cases h
    · exact hnumeral 2 (Nat.lt_trans hbyte (by decide))
    · exact hnumeral 4 hshort
    · exact hnumeral 8 (toNat_lt_pow c)

/-- No code point is quoted with a line end. -/
theorem newline_notMem_quoteChar (c : Char) : '\n' ∉ quoteChar c := by
  have hletter : shortEscapes.all (·.1 != '\n') = true := by decide
  have hescape : ∀ letter width, letter ≠ '\n' → '\n' ∉ '\\' :: letter :: hexDigits width c.toNat := by
    intro letter width hne
    rw [List.mem_cons, List.mem_cons, not_or, not_or]
    exact ⟨by decide, hne.symm, newline_notMem_hexDigits width _⟩
  rw [quoteChar]
  split
  case h_1 letter h =>
    have hne : letter ≠ '\n' := bne_iff_ne.mp (List.all_eq_true.mp hletter _ (mem_shortEscapes h))
    simpa using hne.symm
  case h_2 h =>
    split_ifs
    · intro hmem
      obtain rfl := List.mem_singleton.mp hmem
      cases h
    · exact hescape 'x' 2 (by decide)
    · exact hescape 'u' 4 (by decide)
    · exact hescape 'U' 8 (by decide)

theorem quoteChar_inj {c d : Char} {rest rest' : List Char} (h : quoteChar c ++ rest = quoteChar d ++ rest') :
    c = d ∧ rest = rest' := by
  have hread := congrArg readQuoted h
  rw [readQuoted_quoteChar, readQuoted_quoteChar] at hread
  exact Prod.mk.inj (Option.some.inj hread)

/-- Quoted code points tell where they end: the reader yields nothing at a closing quote, and a code point where
the text goes on. -/
theorem flatMap_quoteChar_inj {cs ds rest rest' : List Char}
    (h : cs.flatMap quoteChar ++ '"' :: rest = ds.flatMap quoteChar ++ '"' :: rest') : cs = ds ∧ rest = rest' := by
  have hends : ∀ {d : Char} {ds rest rest' : List Char},
      '"' :: rest ≠ (d :: ds).flatMap quoteChar ++ '"' :: rest' := by
    intro d ds rest rest' h
    have hread := congrArg readQuoted h
    rw [List.flatMap_cons, List.append_assoc, readQuoted_quoteChar] at hread
    cases hread
  induction cs generalizing ds with
  | nil =>
      cases ds with
      | nil => exact ⟨rfl, List.tail_eq_of_cons_eq h⟩
      | cons d ds => exact absurd h hends
  | cons c cs ih =>
      cases ds with
      | nil => exact absurd h.symm hends
      | cons d ds =>
          rw [List.flatMap_cons, List.flatMap_cons, List.append_assoc, List.append_assoc] at h
          obtain ⟨rfl, hinside⟩ := quoteChar_inj h
          obtain ⟨rfl, hrest⟩ := ih hinside
          exact ⟨rfl, hrest⟩

/-- A quoted text tells its text and where it ends. -/
theorem quote_inj {s s' : String} {rest rest' : List Char}
    (h : (quote s).toList ++ rest = (quote s').toList ++ rest') : s = s' ∧ rest = rest' := by
  rw [quote, quote, String.toList_ofList, String.toList_ofList, List.append_assoc, List.append_assoc] at h
  obtain ⟨hlist, hrest⟩ := flatMap_quoteChar_inj (List.tail_eq_of_cons_eq h)
  exact ⟨String.toList_inj.mp hlist, hrest⟩

theorem newline_notMem_quote (s : String) : '\n' ∉ (quote s).toList := by
  have hinside : '\n' ∉ s.toList.flatMap quoteChar := by
    intro hmem
    obtain ⟨c, -, hc⟩ := List.mem_flatMap.mp hmem
    exact newline_notMem_quoteChar c hc
  simpa [quote] using hinside

end BlockLang.Text

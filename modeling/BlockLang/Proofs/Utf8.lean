import BlockLang.Text.Utf8
import Mathlib.Tactic.Basic

/-! Texts as bytes. The encoding of a code point is read as the code point, and so the encoding of a
text is read as the text. -/

namespace BlockLang.Text

section Bytes

variable {a b : UInt8} {m n : Nat}

theorem byte_lt (ha : a.toNat = m) (hb : b.toNat = n) : a < b ↔ m < n := by
  rw [UInt8.lt_iff_toNat_lt, ha, hb]

theorem byte_le (ha : a.toNat = m) (hb : b.toNat = n) : a ≤ b ↔ m ≤ n := by
  rw [UInt8.le_iff_toNat_le, ha, hb]

/-- A condition that only counts for one byte. -/
theorem bne_or_of {holds : Bool} (ha : a.toNat = m) (hb : b.toNat = n) (h : m = n → holds = true) :
    (a != b || holds) = true := by
  by_cases heq : a = b
  · rw [h (by rw [← ha, ← hb, heq]), Bool.or_true]
  · rw [bne_iff_ne.mpr heq, Bool.true_or]

theorem isContinuation_of (ha : a.toNat = m + 128) (hm : m < 64) : isContinuation a = true := by
  have hlow : 0x80 ≤ a := (byte_le (m := 128) rfl ha).mpr (by omega)
  have hhigh : a ≤ 0xBF := (byte_le (n := 191) ha rfl).mpr (by omega)
  rw [isContinuation, decide_eq_true hlow, decide_eq_true hhigh]
  rfl

theorem payload_of (ha : a.toNat = m + 128) (hm : m < 64) : payload a = m := by
  rw [payload, ha]
  omega

end Bytes

section Lead

variable {b₀ b₁ b₂ b₃ : UInt8} {rest : List UInt8} {x y z w : Nat}

theorem firstChar?_one (h₀ : b₀.toNat = x) (hx : x < 128) :
    firstChar? (b₀ :: rest) = some (Char.ofNat x, 1) := by
  have h1 : b₀ < 0x80 := (byte_lt (n := 128) h₀ rfl).mpr hx
  simp only [firstChar?, h1, if_true, h₀]

theorem firstChar?_two (h₀ : b₀.toNat = x + 192) (h₁ : b₁.toNat = y + 128) (hx : 2 ≤ x ∧ x < 32)
    (hy : y < 64) : firstChar? (b₀ :: b₁ :: rest) = some (Char.ofNat (x * 64 + y), 2) := by
  have h1 : ¬b₀ < 0x80 := by rw [byte_lt (n := 128) h₀ rfl]; omega
  have h2 : ¬b₀ < 0xC2 := by rw [byte_lt (n := 194) h₀ rfl]; omega
  have h3 : b₀ < 0xE0 := by rw [byte_lt (n := 224) h₀ rfl]; omega
  have hmod : (x + 192) % 32 = x := by omega
  simp only [firstChar?, h1, h2, h3, if_false, if_true, isContinuation_of h₁ hy, payload_of h₁ hy, h₀,
    hmod]

/-- Three bytes are decoded to the code point of their bits, if it needs three and is no surrogate. -/
theorem firstChar?_three (h₀ : b₀.toNat = x + 224) (h₁ : b₁.toNat = y + 128)
    (h₂ : b₂.toNat = z + 128) (hx : x < 16) (hy : y < 64) (hz : z < 64) (hlow : x = 0 → 32 ≤ y)
    (hhigh : x = 13 → y < 32) :
    firstChar? (b₀ :: b₁ :: b₂ :: rest) = some (Char.ofNat (x * 4096 + y * 64 + z), 3) := by
  have h1 : ¬b₀ < 0x80 := by rw [byte_lt (n := 128) h₀ rfl]; omega
  have h2 : ¬b₀ < 0xC2 := by rw [byte_lt (n := 194) h₀ rfl]; omega
  have h3 : ¬b₀ < 0xE0 := by rw [byte_lt (n := 224) h₀ rfl]; omega
  have h4 : b₀ < 0xF0 := by rw [byte_lt (n := 240) h₀ rfl]; omega
  have hl : (b₀ != 0xE0 || decide (0xA0 ≤ b₁)) = true :=
    bne_or_of (n := 224) h₀ rfl fun h =>
      decide_eq_true ((byte_le (m := 160) rfl h₁).mpr (by omega))
  have hh : (b₀ != 0xED || decide (b₁ ≤ 0x9F)) = true :=
    bne_or_of (n := 237) h₀ rfl fun h =>
      decide_eq_true ((byte_le (n := 159) h₁ rfl).mpr (by omega))
  have hmod : (x + 224) % 16 = x := by omega
  simp only [firstChar?, h1, h2, h3, h4, if_false, if_true, isContinuation_of h₁ hy,
    isContinuation_of h₂ hz, payload_of h₁ hy, payload_of h₂ hz, hl, hh, h₀, hmod, Bool.and_self]

/-- Four bytes are decoded to the code point of their bits, if it needs four and is in range. -/
theorem firstChar?_four (h₀ : b₀.toNat = x + 240) (h₁ : b₁.toNat = y + 128)
    (h₂ : b₂.toNat = z + 128) (h₃ : b₃.toNat = w + 128) (hx : x < 5) (hy : y < 64) (hz : z < 64)
    (hw : w < 64) (hlow : x = 0 → 16 ≤ y) (hhigh : x = 4 → y < 16) :
    firstChar? (b₀ :: b₁ :: b₂ :: b₃ :: rest) =
      some (Char.ofNat (x * 262144 + y * 4096 + z * 64 + w), 4) := by
  have h1 : ¬b₀ < 0x80 := by rw [byte_lt (n := 128) h₀ rfl]; omega
  have h2 : ¬b₀ < 0xC2 := by rw [byte_lt (n := 194) h₀ rfl]; omega
  have h3 : ¬b₀ < 0xE0 := by rw [byte_lt (n := 224) h₀ rfl]; omega
  have h4 : ¬b₀ < 0xF0 := by rw [byte_lt (n := 240) h₀ rfl]; omega
  have h5 : b₀ < 0xF5 := by rw [byte_lt (n := 245) h₀ rfl]; omega
  have hl : (b₀ != 0xF0 || decide (0x90 ≤ b₁)) = true :=
    bne_or_of (n := 240) h₀ rfl fun h =>
      decide_eq_true ((byte_le (m := 144) rfl h₁).mpr (by omega))
  have hh : (b₀ != 0xF4 || decide (b₁ ≤ 0x8F)) = true :=
    bne_or_of (n := 244) h₀ rfl fun h =>
      decide_eq_true ((byte_le (n := 143) h₁ rfl).mpr (by omega))
  have hmod : (x + 240) % 8 = x := by omega
  simp only [firstChar?, h1, h2, h3, h4, h5, if_false, if_true, isContinuation_of h₁ hy,
    isContinuation_of h₂ hz, isContinuation_of h₃ hw, payload_of h₁ hy, payload_of h₂ hz,
    payload_of h₃ hw, hl, hh, h₀, hmod, Bool.and_self]

end Lead

/-- The encoding of a code point is read as the code point. -/
theorem firstChar?_utf8EncodeChar (c : Char) (rest : List UInt8) :
    firstChar? (String.utf8EncodeChar c ++ rest) = some (c, (String.utf8EncodeChar c).length) := by
  have hvalid : c.val.toNat < 0xD800 ∨ 0xDFFF < c.val.toNat ∧ c.val.toNat < 0x110000 := c.valid
  have hbyte : ∀ {n}, n < 256 → (UInt8.ofNat n).toNat = n := UInt8.toNat_ofNat_of_lt'
  have hchar : ∀ {n}, n = c.val.toNat → Char.ofNat n = c := fun h => h ▸ Char.ofNat_toNat c
  simp only [String.utf8EncodeChar]
  generalize c.val.toNat = v at hvalid hchar
  by_cases h1 : v ≤ 0x7f
  · simp only [if_pos h1]
    rw [List.singleton_append, firstChar?_one (hbyte (by omega)) (by omega), hchar rfl]
    rfl
  by_cases h2 : v ≤ 0x7ff
  · have hv : v / 64 % 32 * 64 + v % 64 = v := by omega
    simp only [if_neg h1, if_pos h2, List.cons_append, List.nil_append]
    rw [firstChar?_two (hbyte (by omega)) (hbyte (by omega)) ⟨by omega, by omega⟩ (by omega), hchar hv]
    rfl
  by_cases h3 : v ≤ 0xffff
  · have hv : v / 4096 % 16 * 4096 + v / 64 % 64 * 64 + v % 64 = v := by omega
    simp only [if_neg h1, if_neg h2, if_pos h3, List.cons_append, List.nil_append]
    rw [firstChar?_three (hbyte (by omega)) (hbyte (by omega)) (hbyte (by omega)) (by omega) (by omega)
      (by omega) (by omega) (by omega), hchar hv]
    rfl
  · have hv : v / 262144 % 8 * 262144 + v / 4096 % 64 * 4096 + v / 64 % 64 * 64 + v % 64 = v := by
      omega
    simp only [if_neg h1, if_neg h2, if_neg h3, List.cons_append, List.nil_append]
    rw [firstChar?_four (hbyte (by omega)) (hbyte (by omega)) (hbyte (by omega)) (hbyte (by omega))
      (by omega) (by omega) (by omega) (by omega) (by omega) (by omega), hchar hv]
    rfl

theorem toList_loop (bytes : ByteArray) (i : Nat) (front : List UInt8) :
    ByteArray.toList.loop bytes i front = front.reverse ++ bytes.data.toList.drop i := by
  fun_induction ByteArray.toList.loop bytes i front with
  | case1 i front h ih =>
      have hget : bytes.get! i = bytes.data.toList[i] := by
        rw [ByteArray.get!, Array.getElem_toList]
        exact getElem!_pos bytes.data i h
      rw [ih, List.reverse_cons, hget, List.append_assoc, List.singleton_append,
        ← List.drop_eq_getElem_cons]
  | case2 i front h =>
      rw [List.drop_eq_nil_of_le (Nat.not_lt.mp h), List.append_nil]

theorem encode_eq_flatMap (s : String) : encode s = s.toList.flatMap String.utf8EncodeChar := by
  have hbytes : s.toUTF8 = (s.toList.flatMap String.utf8EncodeChar).toByteArray :=
    String.utf8Encode_toList.symm
  rw [encode, ByteArray.toList, toList_loop, hbytes, List.toList_data_toByteArray]
  rfl

theorem length_encode (s : String) : (encode s).length = s.utf8ByteSize := by
  rw [encode, ByteArray.toList, toList_loop]
  rfl

theorem validFrom_append (front rest : List UInt8) :
    validFrom front.length (front ++ rest) = validFrom 0 rest := by
  induction front with
  | nil => rfl
  | cons b front ih => exact ih

theorem decodeFrom_append (front rest : List UInt8) :
    decodeFrom front.length (front ++ rest) = decodeFrom 0 rest := by
  induction front with
  | nil => rfl
  | cons b front ih => exact ih

/-- An encoded code point is valid and is decoded to itself, whatever follows. -/
theorem decode_encode_cons (c : Char) (rest : List UInt8) :
    validFrom 0 (String.utf8EncodeChar c ++ rest) = validFrom 0 rest ∧
      decodeFrom 0 (String.utf8EncodeChar c ++ rest) = c :: decodeFrom 0 rest := by
  have hfirst := firstChar?_utf8EncodeChar c rest
  cases hbytes : String.utf8EncodeChar c with
  | nil =>
      have hlength := String.length_utf8EncodeChar c
      rw [hbytes] at hlength
      exact absurd hlength.symm (Nat.ne_of_gt c.utf8Size_pos)
  | cons b front =>
      rw [hbytes, List.cons_append] at hfirst
      rw [List.cons_append, validFrom, decodeFrom, hfirst]
      exact ⟨validFrom_append front rest, congrArg (c :: ·) (decodeFrom_append front rest)⟩

theorem decode?_encode (s : String) : decode? (encode s) = some s := by
  have h : ∀ cs : List Char, validFrom 0 (cs.flatMap String.utf8EncodeChar) = true ∧
      decodeFrom 0 (cs.flatMap String.utf8EncodeChar) = cs := by
    intro cs
    induction cs with
    | nil => exact ⟨rfl, rfl⟩
    | cons c cs ih =>
        rw [List.flatMap_cons, (decode_encode_cons c _).1, (decode_encode_cons c _).2, ih.2]
        exact ⟨ih.1, rfl⟩
  rw [decode?, encode_eq_flatMap, if_pos (h _).1, decodeLossy, (h _).2, String.ofList_toList]

end BlockLang.Text

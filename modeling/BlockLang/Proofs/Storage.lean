import BlockLang.Bytecode.Codec
import BlockLang.Proofs.Encoding
import BlockLang.Proofs.Utf8

/-! Programs are read back. A valid program within the limits of the format is stored as bytes that are
read as the same program, in every field; a missing section stays missing and an empty one empty. What
is read from any bytes is valid, and can be stored again. -/

namespace BlockLang

namespace Stored

theorem integer?_unsigned {low high : Int} {n : Nat} (hlow : low ≤ n) (hhigh : (n : Int) ≤ high) :
    integer? low high (.unsigned n) = some (n : Int) := if_pos ⟨hlow, hhigh⟩

/-- An integer is read back from its item, on both sides of zero. -/
theorem int64?_ofInt (n : Int64) : int64? (Cbor.ofInt n.toInt) = some n := by
  have hlow : -Int.pow 2 63 ≤ n.toInt := n.le_toInt
  have hhigh : n.toInt < Int.pow 2 63 := n.toInt_lt
  have hinteger : integer? (-Int.pow 2 63) (Int.pow 2 63 - 1) (Cbor.ofInt n.toInt) =
      some n.toInt := by
    rw [Cbor.ofInt]
    split
    case isTrue hneg =>
      have hvalue : -1 - (((-1 - n.toInt).toNat : Nat) : Int) = n.toInt := by omega
      rw [integer?, plain?, hvalue]
      exact if_pos ⟨hlow, by omega⟩
    case isFalse hpos =>
      have hvalue : ((n.toInt.toNat : Nat) : Int) = n.toInt := by omega
      rw [integer?, plain?, hvalue]
      exact if_pos ⟨hlow, by omega⟩
  rw [int64?, hinteger, Option.map_some, Int64.ofInt_toInt]

theorem text?_encode (s : String) : text? [Text.encode s] = some s := by
  have hchunks : [Text.encode s].mapM Text.decode? = some [s] := by
    rw [List.mapM_cons, Text.decode?_encode]
    rfl
  rw [text?, hchunks, Option.map_some, String.join_cons, String.join_nil, String.append_empty]

theorem string?_textItem (s : String) : string? (textItem s) = some s := text?_encode s

/-- An instruction is read back from its item. -/
theorem instr?_instrItem (i : Instr) : instr? (instrItem i) = some i := by
  have hcode : integer? 0 255 (.unsigned i.code.toNat) = some (i.code.toNat : Int) :=
    integer?_unsigned (by omega) (by have := i.code.toNat_lt; omega)
  have hbyte : UInt8.ofNat (Int.toNat (i.code.toNat : Int)) = i.code := UInt8.ofNat_toNat
  by_cases harg : i.arg = 0
  · have hfields : structure? (instrItem i) = some [(.number 1, .unsigned i.code.toNat)] := by
      rw [instrItem, if_pos harg]
      rfl
    rw [instr?, hfields]
    show (integer? 0 255 (.unsigned i.code.toNat)).bind _ = _
    rw [hcode]
    show some (⟨UInt8.ofNat (Int.toNat (i.code.toNat : Int)), 0⟩ : Instr) = _
    rw [hbyte, ← harg]
  · have hfields : structure? (instrItem i) =
        some [(.number 1, .unsigned i.code.toNat), (.number 2, Cbor.ofInt i.arg.toInt)] := by
      rw [instrItem, if_neg harg]
      rfl
    rw [instr?, hfields]
    show (integer? 0 255 (.unsigned i.code.toNat)).bind _ = _
    rw [hcode]
    show (int64? (Cbor.ofInt i.arg.toInt)).bind _ = _
    rw [int64?_ofInt]
    show some (⟨UInt8.ofNat (Int.toNat (i.code.toNat : Int)), i.arg⟩ : Instr) = _
    rw [hbyte]

/-- A section is read back from its item; one that is not there stays so. -/
theorem section?_sectionItem {α : Type} {item : α → Cbor.Item} {element? : Cbor.Item → Option α}
    (h : ∀ a, element? (item a) = some a) (xs : Option (Array α)) :
    Stored.section? element? (sectionItem item xs) = some xs := by
  cases xs with
  | none => rfl
  | some xs =>
      have hitems : (xs.toList.map item).mapM element? = some xs.toList := by
        induction xs.toList with
        | nil => rfl
        | cons a rest ih =>
            rw [List.map_cons, List.mapM_cons, h, ih]
            rfl
      show ((xs.toList.map item).mapM element?).map (fun xs => some xs.toArray) = _
      rw [hitems, Option.map_some, Array.toArray_toList]

/-- A program is read back from its item. -/
theorem program?_programItem (p : Program) : program? (programItem p) = some p := by
  have hhash : integer? 0 (Int.pow 2 64 - 1) (.unsigned p.sourceHash.toNat) =
      some (p.sourceHash.toNat : Int) :=
    integer?_unsigned (by omega) (Int.le_sub_one_of_lt (Int.ofNat_lt.mpr p.sourceHash.toNat_lt))
  have hfields : structure? (programItem p) = some [(.number 1, sectionItem instrItem p.code),
      (.number 2, sectionItem textItem p.strings), (.number 3, Cbor.ofInt p.labelCount.toInt),
      (.number 4, Cbor.ofInt p.slotCount.toInt), (.number 5, .unsigned p.sourceHash.toNat)] := rfl
  rw [program?, hfields]
  show (section? instr? (sectionItem instrItem p.code)).bind _ = _
  rw [section?_sectionItem instr?_instrItem]
  show (section? string? (sectionItem textItem p.strings)).bind _ = _
  rw [section?_sectionItem string?_textItem]
  show (int64? (Cbor.ofInt p.labelCount.toInt)).bind _ = _
  rw [int64?_ofInt]
  show (int64? (Cbor.ofInt p.slotCount.toInt)).bind _ = _
  rw [int64?_ofInt]
  show (integer? 0 (Int.pow 2 64 - 1) (.unsigned p.sourceHash.toNat)).bind _ = _
  rw [hhash]
  have hword : UInt64.ofNat (Int.toNat (p.sourceHash.toNat : Int)) = p.sourceHash :=
    UInt64.ofNat_toNat
  show some { p with sourceHash := UInt64.ofNat (Int.toNat (p.sourceHash.toNat : Int)) } = some p
  rw [hword]

section Limits

variable {height : Nat}

theorem storable_ofInt (n : Int64) : Cbor.Storable height (Cbor.ofInt n.toInt) := by
  have hlow : -Int.pow 2 63 ≤ n.toInt := n.le_toInt
  have hhigh : n.toInt < Int.pow 2 63 := n.toInt_lt
  have hpow : Int.pow 2 63 = 9223372036854775808 := by decide
  rw [Cbor.ofInt]
  split
  · refine .negative ?_
    show _ < 18446744073709551616
    omega
  · refine .unsigned ?_
    show _ < 18446744073709551616
    omega

theorem storable_instrItem (i : Instr) : Cbor.Storable (height + 1) (instrItem i) := by
  have hcode : i.code.toNat < Nat.pow 256 8 := Nat.lt_trans i.code.toNat_lt (by decide)
  have hkey : ∀ n < 24, Cbor.Storable height (.unsigned n) :=
    fun n hn => .unsigned (Nat.lt_trans hn (by decide))
  by_cases harg : i.arg = 0
  · rw [instrItem, if_pos harg]
    refine .map (show 1 ≤ Cbor.maxElements by decide) ?_ ?_
    · simpa using hkey 1 (by decide)
    · simpa using .unsigned hcode
  · rw [instrItem, if_neg harg]
    refine .map (show 2 ≤ Cbor.maxElements by decide) ?_ ?_
    · simpa using ⟨hkey 1 (by decide), hkey 2 (by decide)⟩
    · simpa using ⟨.unsigned hcode, storable_ofInt i.arg⟩

theorem storable_textItem {s : String} (h : s.utf8ByteSize < Nat.pow 256 8) :
    Cbor.Storable height (textItem s) := .text (by rwa [Text.length_encode])

theorem storable_sectionItem {α : Type} {item : α → Cbor.Item} {xs : Option (Array α)}
    (hsize : (xs.getD #[]).size ≤ Cbor.maxElements)
    (h : ∀ a ∈ xs.getD #[], Cbor.Storable height (item a)) :
    Cbor.Storable (height + 1) (sectionItem item xs) := by
  cases xs with
  | none => exact .simple (by decide)
  | some xs =>
      refine .array ?_ ?_
      · rw [List.length_map, Array.length_toList]
        exact hsize
      · intro x hx
        obtain ⟨a, ha, rfl⟩ := List.mem_map.mp hx
        exact h a (Array.mem_toList_iff.mp ha)

end Limits

theorem bounded_null : Cbor.Bounded Cbor.null := .simple

/-- What stands behind the tags of a bounded item. -/
theorem bounded_plain {item : Cbor.Item} (h : Cbor.Bounded item) :
    (∀ items, plain? item = some (.array items) → items.length ≤ Cbor.maxElements) ∧
      ∀ pairs, plain? item = some (.map pairs) → ∀ p ∈ pairs, Cbor.Bounded p.2 := by
  induction h with
  | unsigned | negative | bytes | text | float => exact ⟨nofun, nofun⟩
  | simple =>
      rw [plain?]
      repeat' split
      all_goals exact ⟨nofun, nofun⟩
  | array hsize _ =>
      refine ⟨fun items h => ?_, nofun⟩
      cases h
      exact hsize
  | map hvalues =>
      refine ⟨nofun, fun pairs h => ?_⟩
      cases h
      exact hvalues
  | tag _ ih =>
      rw [plain?.eq_def]
      dsimp only
      split
      · split
        · exact ⟨nofun, nofun⟩
        · exact ⟨nofun, nofun⟩
        · exact ih
      · exact ⟨nofun, nofun⟩

theorem mem_of_fields? {pairs : List (Cbor.Item × Cbor.Item)} {fields : List (Key × Cbor.Item)}
    (h : fields? pairs = some fields) : ∀ f ∈ fields, ∃ p ∈ pairs, p.2 = f.2 := by
  induction pairs generalizing fields with
  | nil =>
      cases h
      exact List.forall_mem_nil _
  | cons p pairs ih =>
      rw [fields?, List.mapM_cons] at h
      obtain ⟨f, hf, h⟩ := Option.bind_eq_some_iff.mp h
      obtain ⟨others, hothers, h⟩ := Option.bind_eq_some_iff.mp h
      cases h
      obtain ⟨key, -, rfl⟩ := Option.map_eq_some_iff.mp hf
      intro f' hf'
      rcases List.mem_cons.mp hf' with rfl | hf'
      · exact ⟨p, List.mem_cons_self, rfl⟩
      · obtain ⟨p', hp', heq⟩ := ih hothers f' hf'
        exact ⟨p', List.mem_cons_of_mem p hp', heq⟩

/-- The field of a bounded item is bounded, as is one that is missing. -/
theorem bounded_field {item : Cbor.Item} {fields : List (Key × Cbor.Item)} (hb : Cbor.Bounded item)
    (h : structure? item = some fields) (number : Nat) : Cbor.Bounded (field fields number) := by
  have hfields : ∀ f ∈ fields, Cbor.Bounded f.2 := by
    rw [structure?] at h
    split at h
    case h_1 =>
      cases h
      exact List.forall_mem_nil _
    case h_2 pairs hplain =>
      intro f hf
      obtain ⟨p, hp, heq⟩ := mem_of_fields? h f hf
      exact heq ▸ (bounded_plain hb).2 pairs hplain p hp
    case h_3 => cases h
  rw [field]
  split
  case h_1 key item hfind => exact hfields _ (List.mem_of_find?_eq_some hfind)
  case h_2 => exact bounded_null

theorem length_of_mapM {α β : Type} {f : α → Option β} {xs : List α} {ys : List β}
    (h : xs.mapM f = some ys) : ys.length = xs.length := by
  induction xs generalizing ys with
  | nil =>
      cases h
      rfl
  | cons x xs ih =>
      rw [List.mapM_cons] at h
      obtain ⟨y, -, h⟩ := Option.bind_eq_some_iff.mp h
      obtain ⟨ys, hys, h⟩ := Option.bind_eq_some_iff.mp h
      cases h
      exact congrArg (· + 1) (ih hys)

theorem size_of_section? {α : Type} {element? : Cbor.Item → Option α} {item : Cbor.Item}
    {xs : Option (Array α)} (hb : Cbor.Bounded item) (h : section? element? item = some xs) :
    (xs.getD #[]).size ≤ Cbor.maxElements := by
  rw [section?] at h
  split at h
  case h_1 =>
    cases h
    exact Nat.zero_le _
  case h_2 items hplain =>
    obtain ⟨ys, hys, rfl⟩ := Option.map_eq_some_iff.mp h
    have hlength := length_of_mapM hys
    have hitems := (bounded_plain hb).1 items hplain
    show ys.toArray.size ≤ _
    rw [List.size_toArray]
    omega
  case h_3 => cases h

/-- A program that is read has no larger tables than the reader allows. -/
theorem size_of_program? {item : Cbor.Item} {p : Program} (hb : Cbor.Bounded item)
    (h : program? item = some p) :
    p.instrs.size ≤ Cbor.maxElements ∧ p.constants.size ≤ Cbor.maxElements := by
  rw [program?] at h
  obtain ⟨fields, hfields, h⟩ := Option.bind_eq_some_iff.mp h
  obtain ⟨code, hcode, h⟩ := Option.bind_eq_some_iff.mp h
  obtain ⟨strings, hstrings, h⟩ := Option.bind_eq_some_iff.mp h
  obtain ⟨labelCount, -, h⟩ := Option.bind_eq_some_iff.mp h
  obtain ⟨slotCount, -, h⟩ := Option.bind_eq_some_iff.mp h
  obtain ⟨hash, -, h⟩ := Option.bind_eq_some_iff.mp h
  cases h
  exact ⟨size_of_section? (bounded_field hb hfields 1) hcode,
    size_of_section? (bounded_field hb hfields 2) hstrings⟩

end Stored

namespace Program

/-- The limits of the format: the numbers of instructions and of string constants, and the lengths of
the constants in bytes. -/
structure Fits (p : Program) : Prop where
  code : p.instrs.size ≤ Cbor.maxElements
  strings : p.constants.size ≤ Cbor.maxElements
  texts : ∀ s ∈ p.constants, s.utf8ByteSize < Nat.pow 2 64

/-- A program that fits is an item that can be stored. -/
theorem Fits.storable {p : Program} (h : p.Fits) : Cbor.Storable 3 (Stored.programItem p) := by
  have hkey : ∀ n < 24, Cbor.Storable 2 (.unsigned n) :=
    fun n hn => .unsigned (Nat.lt_trans hn (by decide))
  have hcode : Cbor.Storable 2 (Stored.sectionItem Stored.instrItem p.code) :=
    Stored.storable_sectionItem h.code fun i _ => Stored.storable_instrItem i
  have hstrings : Cbor.Storable 2 (Stored.sectionItem Stored.textItem p.strings) :=
    Stored.storable_sectionItem h.strings fun s hs => Stored.storable_textItem (h.texts s hs)
  have hhash : Cbor.Storable 2 (.unsigned p.sourceHash.toNat) := .unsigned p.sourceHash.toNat_lt
  refine .map (show 5 ≤ Cbor.maxElements by decide) ?_ ?_
  · simpa using ⟨hkey 1 (by decide), hkey 2 (by decide), hkey 3 (by decide), hkey 4 (by decide),
      hkey 5 (by decide)⟩
  · simpa using ⟨hcode, hstrings, Stored.storable_ofInt p.labelCount,
      Stored.storable_ofInt p.slotCount, hhash⟩

theorem ofBytes_toBytes {p : Program} (hvalid : p.validate = .ok ()) (hfits : p.Fits) :
    ofBytes p.toBytes = .ok p := by
  have hprefix : Stored.signature.isPrefixOf p.toBytes = true :=
    List.isPrefixOf_iff_prefix.mpr (List.prefix_append _ _)
  have hdrop : p.toBytes.drop Stored.signature.length = Cbor.encode (Stored.programItem p) :=
    List.drop_left
  have hitem : Cbor.decode? (Cbor.encode (Stored.programItem p)) = some (Stored.programItem p) :=
    Cbor.decode?_encode hfits.storable (by decide)
  rw [ofBytes, if_pos hprefix, hdrop, hitem, Option.bind_some, Stored.program?_programItem]
  simp only [hvalid]

/-- What is read is valid and within the limits on its sections. -/
theorem of_ofBytes {bytes : List UInt8} {p : Program} (h : ofBytes bytes = .ok p) :
    p.validate = .ok () ∧ p.instrs.size ≤ Cbor.maxElements ∧ p.constants.size ≤ Cbor.maxElements := by
  rw [ofBytes] at h
  split at h
  case isFalse => cases h
  case isTrue =>
    split at h
    case h_1 => cases h
    case h_2 q hread =>
      split at h
      case h_1 => cases h
      case h_2 hvalid =>
        cases h
        obtain ⟨item, hitem, hprogram⟩ := Option.bind_eq_some_iff.mp hread
        exact ⟨hvalid, Stored.size_of_program? (Cbor.bounded_of_decode? hitem) hprogram⟩

/-- A valid program within the limits of the format is read back as it was stored. What is read from
any bytes is valid and can be stored and read back in turn, unless a string is too long for the
format. -/
theorem ofBytes_toBytes_eq :
    (∀ p : Program, p.validate = .ok () → p.Fits → ofBytes p.toBytes = .ok p) ∧
      ∀ (bytes : List UInt8) (q : Program), ofBytes bytes = .ok q →
        q.validate = .ok () ∧
          ((∀ s ∈ q.constants, s.utf8ByteSize < Nat.pow 2 64) → ofBytes q.toBytes = .ok q) := by
  refine ⟨fun p => ofBytes_toBytes, fun bytes q h => ?_⟩
  obtain ⟨hvalid, hcode, hstrings⟩ := of_ofBytes h
  exact ⟨hvalid, fun htexts => ofBytes_toBytes hvalid ⟨hcode, hstrings, htexts⟩⟩

theorem ofBytes_toBytes_eq_jump :
    ∃ p : Program,
      p = { code := some #[⟨Op.label.code, 0⟩, ⟨Op.pushInt.code, Int64.minValue⟩,
              ⟨Op.pushString.code, 1⟩, ⟨Op.jump.code, 0⟩]
            strings := some #["", "aé€😀"]
            labelCount := 1
            sourceHash := 0xFFFFFFFFFFFFFFFF } ∧
      p.validate = .ok () ∧ p.Fits ∧ ofBytes p.toBytes = .ok p := by
  refine ⟨_, rfl, ?_⟩
  generalize hp : (Program.mk _ _ _ _ _) = p
  have hvalid : p.validate = .ok () := by
    rw [← hp]
    rfl
  have hfits : p.Fits := by
    rw [← hp]
    exact ⟨by decide, by decide, by decide +kernel⟩
  exact ⟨hvalid, hfits, ofBytes_toBytes_eq.1 p hvalid hfits⟩

end Program

end BlockLang

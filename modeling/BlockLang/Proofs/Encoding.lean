import BlockLang.Cbor.Decode
import Mathlib.Tactic.Basic

/-! Data items are read back. The canonical encoding of an item is read as the item, whatever comes
behind it, if the numbers, the lengths and the nesting of the item are within the bounds of the format.
The fuel that reading needs is at most twice the number of bytes. -/

namespace BlockLang.Cbor

section Heads

variable {width n major : Nat} {digits rest : List UInt8}

theorem length_bigEndian (width n : Nat) : (bigEndian width n).length = width := by
  induction width generalizing n with
  | zero => rfl
  | succ width ih => rw [bigEndian, List.length_append, ih, List.length_singleton]

theorem ofBigEndian_append (digits : List UInt8) (b : UInt8) :
    ofBigEndian (digits ++ [b]) = ofBigEndian digits * 256 + b.toNat :=
  List.foldl_append

/-- A number that fits into some bytes is read back from them. -/
theorem ofBigEndian_bigEndian (h : n < Nat.pow 256 width) : ofBigEndian (bigEndian width n) = n := by
  induction width generalizing n with
  | zero =>
      have hzero : n = 0 := Nat.lt_one_iff.mp h
      rw [hzero]
      rfl
  | succ width ih =>
      have hdiv : n / 256 < Nat.pow 256 width := Nat.div_lt_of_lt_mul (by
        rw [Nat.mul_comm]
        exact h)
      have hbyte : (UInt8.ofNat n).toNat = n % 256 := UInt8.toNat_ofNat'
      rw [bigEndian, ofBigEndian_append, ih hdiv, hbyte]
      omega

theorem split?_append (h : digits.length = n) : split? n (digits ++ rest) = some (digits, rest) := by
  have htake : (digits ++ rest).take n = digits := by rw [← h, List.take_left]
  have hdrop : (digits ++ rest).drop n = rest := by rw [← h, List.drop_left]
  simp only [split?, htake, hdrop, if_pos h]

/-- The first byte of a head holds the major type and five bits. -/
theorem lead {major n : Nat} (hmajor : major < 8) (hn : n < 32) :
    (UInt8.ofNat (major * 32 + n)).toNat / 32 = major ∧
      (UInt8.ofNat (major * 32 + n)).toNat % 32 = n := by
  have hbyte : (UInt8.ofNat (major * 32 + n)).toNat = major * 32 + n :=
    UInt8.toNat_ofNat_of_lt' (by show _ < 256; omega)
  rw [hbyte]
  omega

theorem head?_small (hmajor : major < 8) (hn : n < 24) :
    head? (head major n ++ rest) = some (⟨major, n, some n⟩, rest) := by
  obtain ⟨hdiv, hmod⟩ := lead (n := n) hmajor (by omega)
  simp only [head, if_pos hn, List.singleton_append, head?, hdiv, hmod]

/-- A number that does not fit into the first byte is read from the bytes behind it. -/
theorem head?_sized {info : Nat} (hmajor : major < 7)
    (hinfo : (info, width) ∈ [(24, 1), (25, 2), (26, 4), (27, 8)]) (hn : n < Nat.pow 256 width) :
    head? (UInt8.ofNat (major * 32 + info) :: bigEndian width n ++ rest) =
      some (⟨major, info, some n⟩, rest) := by
  have hlt : info < 32 := by
    have htable : ∀ p ∈ [(24, 1), (25, 2), (26, 4), (27, 8)], p.1 < 32 := by decide
    exact htable _ hinfo
  obtain ⟨hdiv, hmod⟩ := lead (Nat.lt_succ_of_lt hmajor) hlt
  have hsplit : split? width (bigEndian width n ++ rest) = some (bigEndian width n, rest) :=
    split?_append (length_bigEndian width n)
  have hseven : ¬(major = 7 ∧ n < 32) := fun h => by omega
  generalize UInt8.ofNat (major * 32 + info) = b at hdiv hmod
  simp only [List.mem_cons, Prod.mk.injEq, List.not_mem_nil, or_false] at hinfo
  rw [List.cons_append, head?]
  rcases hinfo with ⟨rfl, rfl⟩ | ⟨rfl, rfl⟩ | ⟨rfl, rfl⟩ | ⟨rfl, rfl⟩
  case inl => simp [hdiv, hmod, hsplit, ofBigEndian_bigEndian hn, hseven]
  all_goals simp [hdiv, hmod, hsplit, ofBigEndian_bigEndian hn]

/-- The head of any number of 64 bits is read, for the major types that have no simple values. -/
theorem head?_head (major : Nat) (rest : List UInt8) (hmajor : major < 7) (hn : n < Nat.pow 256 8) :
    ∃ info, head? (head major n ++ rest) = some (⟨major, info, some n⟩, rest) := by
  by_cases h0 : n < 24
  · exact ⟨n, head?_small (by omega) h0⟩
  rw [head]
  by_cases h1 : n < 0x100
  · refine ⟨24, ?_⟩
    simp only [if_neg h0, if_pos h1]
    exact head?_sized hmajor (by decide) h1
  by_cases h2 : n < 0x10000
  · refine ⟨25, ?_⟩
    simp only [if_neg h0, if_neg h1, if_pos h2]
    exact head?_sized hmajor (by decide) h2
  by_cases h4 : n < 0x100000000
  · refine ⟨26, ?_⟩
    simp only [if_neg h0, if_neg h1, if_neg h2, if_pos h4]
    exact head?_sized hmajor (by decide) h4
  · refine ⟨27, ?_⟩
    simp only [if_neg h0, if_neg h1, if_neg h2, if_neg h4]
    exact head?_sized hmajor (by decide) hn

theorem length_head_pos (major n : Nat) : 0 < (head major n).length := by
  dsimp only [head]
  repeat' split
  all_goals exact Nat.succ_pos _

end Heads

/-- An item that the format can hold: numbers and lengths have 64 bits, an array and a map have no more
elements than a reader takes, and arrays and maps are nested to a height at most. -/
inductive Storable : Nat → Item → Prop where
  | unsigned {height n : Nat} : n < Nat.pow 256 8 → Storable height (.unsigned n)
  | negative {height n : Nat} : n < Nat.pow 256 8 → Storable height (.negative n)
  | text {height : Nat} {content : List UInt8} :
      content.length < Nat.pow 256 8 → Storable height (.text [content])
  | simple {height n : Nat} : n < 24 → Storable height (.simple n)
  | array {height : Nat} {items : List Item} :
      items.length ≤ maxElements → (∀ x ∈ items, Storable height x) →
      Storable (height + 1) (.array items)
  | map {height : Nat} {pairs : List (Item × Item)} :
      pairs.length ≤ maxElements → (∀ p ∈ pairs, Storable height p.1) →
      (∀ p ∈ pairs, Storable height p.2) → Storable (height + 1) (.map pairs)

/-- The keys and values of pairs in a row. -/
def unpair (pairs : List (Item × Item)) : List Item := pairs.flatMap fun p => [p.1, p.2]

theorem encodePairs_eq (pairs : List (Item × Item)) :
    encodePairs pairs = encodeAll (unpair pairs) := by
  induction pairs with
  | nil => rfl
  | cons p pairs ih =>
      rw [encodePairs, ih]
      rfl

theorem pairUp_unpair (pairs : List (Item × Item)) : pairUp (unpair pairs) = some pairs := by
  induction pairs with
  | nil => rfl
  | cons p pairs ih =>
      show (pairUp (unpair pairs)).map ((p.1, p.2) :: ·) = some (p :: pairs)
      rw [ih]
      rfl

theorem length_unpair (pairs : List (Item × Item)) : (unpair pairs).length = 2 * pairs.length := by
  induction pairs with
  | nil => rfl
  | cons p pairs ih =>
      show (unpair pairs).length + 2 = 2 * (pairs.length + 1)
      omega

/-- The encoding of an item is read as the item at any depth that leaves room for its nesting. -/
def IsRead (height : Nat) (x : Item) : Prop :=
  ∀ {fuel depth tagged rest}, 2 * (encode x).length ≤ fuel → depth + height ≤ maxDepth →
    item? fuel depth tagged (encode x ++ rest) = some (x, rest)

theorem length_encode_pos (x : Item) : 0 < (encode x).length := by
  cases x with
  | float => exact Nat.succ_pos _
  | unsigned n | negative n | simple n => exact length_head_pos _ n
  | _ =>
      rw [encode, List.length_append]
      exact Nat.add_pos_left (length_head_pos _ _) _

/-- Encoded items in a row are read back, as many as there are. -/
theorem items?_encodeAll {height fuel depth : Nat} {items : List Item} {rest : List UInt8}
    (h : ∀ x ∈ items, IsRead height x) (hfuel : 2 * (encodeAll items).length + 1 ≤ fuel)
    (hdepth : depth + height ≤ maxDepth) :
    items? fuel depth items.length (encodeAll items ++ rest) = some (items, rest) := by
  induction items generalizing fuel with
  | nil =>
      rw [List.length_nil, items?]
      rfl
  | cons x items ih =>
      obtain ⟨fuel, rfl⟩ : ∃ f, fuel = f + 1 := ⟨fuel - 1, by omega⟩
      have hpos := length_encode_pos x
      rw [encodeAll, List.length_append] at hfuel
      rw [encodeAll, List.length_cons, List.append_assoc, items?,
        h x List.mem_cons_self (by omega) hdepth]
      show (items? fuel depth items.length (encodeAll items ++ rest)).bind _ = _
      rw [ih (fun y hy => h y (List.mem_cons_of_mem x hy)) (by omega)]
      rfl

section Kinds

variable {height n : Nat} {items : List Item} {pairs : List (Item × Item)}

attribute [local simp] encode item? items?

theorem isRead_unsigned (hn : n < Nat.pow 256 8) : IsRead height (.unsigned n) := by
  intro fuel depth tagged rest hfuel hdepth
  have hpos := length_encode_pos (.unsigned n)
  obtain ⟨fuel, rfl⟩ : ∃ f, fuel = f + 1 := ⟨fuel - 1, by omega⟩
  obtain ⟨info, hhead⟩ := head?_head 0 rest (by decide) hn
  simp [hhead]

theorem isRead_negative (hn : n < Nat.pow 256 8) : IsRead height (.negative n) := by
  intro fuel depth tagged rest hfuel hdepth
  have hpos := length_encode_pos (.negative n)
  obtain ⟨fuel, rfl⟩ : ∃ f, fuel = f + 1 := ⟨fuel - 1, by omega⟩
  obtain ⟨info, hhead⟩ := head?_head 1 rest (by decide) hn
  simp [hhead]

theorem isRead_text {content : List UInt8} (hcontent : content.length < Nat.pow 256 8) :
    IsRead height (.text [content]) := by
  intro fuel depth tagged rest hfuel hdepth
  have hpos := length_encode_pos (.text [content])
  obtain ⟨fuel, rfl⟩ : ∃ f, fuel = f + 1 := ⟨fuel - 1, by omega⟩
  have hflat : [content].flatten = content := List.append_nil content
  obtain ⟨info, hhead⟩ := head?_head 3 (content ++ rest) (by decide) hcontent
  have hsplit : split? content.length (content ++ rest) = some (content, rest) := split?_append rfl
  rw [encode, hflat, List.append_assoc, item?, hhead]
  simp [hsplit]

theorem isRead_simple (hn : n < 24) : IsRead height (.simple n) := by
  intro fuel depth tagged rest hfuel hdepth
  have hpos := length_encode_pos (.simple n)
  obtain ⟨fuel, rfl⟩ : ∃ f, fuel = f + 1 := ⟨fuel - 1, by omega⟩
  have hinfo : ¬25 ≤ n := by omega
  rw [encode, item?, head?_small (by decide) hn]
  simp [hinfo]

/-- An array is read back if its items are, one level deeper. -/
theorem isRead_array (hsize : items.length ≤ maxElements) (h : ∀ x ∈ items, IsRead height x) :
    IsRead (height + 1) (.array items) := by
  intro fuel depth tagged rest hfuel hdepth
  rw [encode, List.length_append] at hfuel
  have hpos := length_head_pos 4 items.length
  obtain ⟨fuel, rfl⟩ : ∃ f, fuel = f + 1 := ⟨fuel - 1, by omega⟩
  have hbound : items.length < Nat.pow 256 8 := Nat.lt_of_le_of_lt hsize (by decide)
  obtain ⟨info, hhead⟩ :=
    head?_head 4 (encodeAll items ++ rest) (by decide) hbound
  have hnested : ¬maxDepth < depth + 1 := by omega
  have hitems : items? fuel (depth + 1) items.length (encodeAll items ++ rest) = some (items, rest) :=
    items?_encodeAll h (by omega) (by omega)
  rw [encode, List.append_assoc, item?, hhead]
  simp [hnested, Nat.not_lt.mpr hsize, hitems]

/-- A map is read back as its keys and values in turn, which are then paired up. -/
theorem isRead_map (hsize : pairs.length ≤ maxElements) (hkeys : ∀ p ∈ pairs, IsRead height p.1)
    (hvalues : ∀ p ∈ pairs, IsRead height p.2) : IsRead (height + 1) (.map pairs) := by
  intro fuel depth tagged rest hfuel hdepth
  rw [encode, encodePairs_eq, List.length_append] at hfuel
  have hpos := length_head_pos 5 pairs.length
  obtain ⟨fuel, rfl⟩ : ∃ f, fuel = f + 1 := ⟨fuel - 1, by omega⟩
  have hbound : pairs.length < Nat.pow 256 8 := Nat.lt_of_le_of_lt hsize (by decide)
  obtain ⟨info, hhead⟩ :=
    head?_head 5 (encodeAll (unpair pairs) ++ rest) (by decide) hbound
  have hnested : ¬maxDepth < depth + 1 := by omega
  have hread : ∀ x ∈ unpair pairs, IsRead height x := by
    intro x hx
    obtain ⟨p, hp, hx⟩ := List.mem_flatMap.mp hx
    simp only [List.mem_cons, List.not_mem_nil, or_false] at hx
    rcases hx with rfl | rfl
    · exact hkeys p hp
    · exact hvalues p hp
  have hitems : items? fuel (depth + 1) (unpair pairs).length (encodeAll (unpair pairs) ++ rest) =
      some (unpair pairs, rest) := items?_encodeAll hread (by omega) (by omega)
  rw [length_unpair] at hitems
  rw [encode, encodePairs_eq, List.append_assoc, item?, hhead]
  simp [hnested, Nat.not_lt.mpr hsize, hitems, pairUp_unpair]

end Kinds

theorem Storable.isRead {height : Nat} {x : Item} (h : Storable height x) : IsRead height x := by
  induction h with
  | unsigned hn => exact isRead_unsigned hn
  | negative hn => exact isRead_negative hn
  | text hcontent => exact isRead_text hcontent
  | simple hn => exact isRead_simple hn
  | array hsize _ ih => exact isRead_array hsize ih
  | map hsize _ _ ihkeys ihvalues => exact isRead_map hsize ihkeys ihvalues

/-- An item that the format can hold is read back. -/
theorem decode?_encode {height : Nat} {x : Item} (h : Storable height x) (hheight : height ≤ maxDepth) :
    decode? (encode x) = some x := by
  have hread : item? (2 * (encode x).length + 2) 0 false (encode x ++ []) = some (x, []) :=
    h.isRead (by omega) (by omega)
  rw [List.append_nil] at hread
  rw [decode?, hread]

/-- An item in which no array has more elements than a reader takes. -/
inductive Bounded : Item → Prop where
  | unsigned {n : Nat} : Bounded (.unsigned n)
  | negative {n : Nat} : Bounded (.negative n)
  | bytes {content : List UInt8} : Bounded (.bytes content)
  | text {chunks : List (List UInt8)} : Bounded (.text chunks)
  | array {items : List Item} :
      items.length ≤ maxElements → (∀ x ∈ items, Bounded x) → Bounded (.array items)
  | map {pairs : List (Item × Item)} : (∀ p ∈ pairs, Bounded p.2) → Bounded (.map pairs)
  | tag {number : Nat} {content : Item} : Bounded content → Bounded (.tag number content)
  | simple {n : Nat} : Bounded (.simple n)
  | float : Bounded .float

theorem mem_of_pairUp {items : List Item} {pairs : List (Item × Item)} (h : pairUp items = some pairs) :
    ∀ p ∈ pairs, p.2 ∈ items := by
  fun_induction pairUp items generalizing pairs with
  | case1 =>
      cases h
      exact List.forall_mem_nil _
  | case2 => cases h
  | case3 key value rest ih =>
      obtain ⟨others, hothers, rfl⟩ := Option.map_eq_some_iff.mp h
      intro p hp
      rcases List.mem_cons.mp hp with rfl | hp
      · exact List.mem_cons_of_mem key List.mem_cons_self
      · exact List.mem_cons_of_mem key (List.mem_cons_of_mem value (ih hothers p hp))

/-- What is read with some fuel is bounded. -/
structure ReadsBounded (fuel : Nat) : Prop where
  item : ∀ {depth tagged bytes x rest}, item? fuel depth tagged bytes = some (x, rest) → Bounded x
  items : ∀ {depth count bytes xs rest}, items? fuel depth count bytes = some (xs, rest) →
    xs.length = count ∧ ∀ x ∈ xs, Bounded x
  opened : ∀ {depth bytes xs rest}, open? fuel depth bytes = some (xs, rest) → ∀ x ∈ xs, Bounded x

section Step

variable {fuel depth : Nat} {tagged : Bool} {bytes rest : List UInt8} (hb : ReadsBounded fuel)

include hb

/-- An item that is read is bounded, one case for each major type; strings, arrays and maps have a given length or
an open one. -/
theorem ReadsBounded.item_succ {x : Item} (h : item? (fuel + 1) depth tagged bytes = some (x, rest)) :
    Bounded x := by
  rw [item?] at h
  obtain ⟨⟨hd, r⟩, -, h⟩ := Option.bind_eq_some_iff.mp h
  dsimp only at h
  split at h
  case h_1 => cases h; exact .unsigned
  case h_2 => cases h; exact .negative
  case h_3 =>
    split at h
    all_goals
      obtain ⟨_, -, h⟩ := Option.bind_eq_some_iff.mp h
      cases h
      exact .bytes
  case h_4 =>
    split at h
    all_goals
      obtain ⟨_, -, h⟩ := Option.bind_eq_some_iff.mp h
      cases h
      exact .text
  case h_5 =>
    split at h
    case isTrue => cases h
    case isFalse =>
      split at h
      · split at h
        case isTrue => cases h
        case isFalse hsize =>
          obtain ⟨⟨items, r'⟩, hitems, h⟩ := Option.bind_eq_some_iff.mp h
          cases h
          obtain ⟨hlength, hall⟩ := hb.items hitems
          exact .array (hlength ▸ Nat.not_lt.mp hsize) hall
      · obtain ⟨⟨items, r'⟩, hitems, h⟩ := Option.bind_eq_some_iff.mp h
        dsimp only at h
        split at h
        case isTrue => cases h
        case isFalse hsize =>
          cases h
          exact .array (Nat.not_lt.mp hsize) (hb.opened hitems)
  case h_6 =>
    split at h
    case isTrue => cases h
    case isFalse =>
      split at h
      · split at h
        case isTrue => cases h
        case isFalse hsize =>
          obtain ⟨⟨items, r'⟩, hitems, h⟩ := Option.bind_eq_some_iff.mp h
          obtain ⟨pairs, hpairs, h⟩ := Option.bind_eq_some_iff.mp h
          cases h
          exact .map fun p hp => (hb.items hitems).2 p.2 (mem_of_pairUp hpairs p hp)
      · obtain ⟨⟨items, r'⟩, hitems, h⟩ := Option.bind_eq_some_iff.mp h
        dsimp only at h
        split at h
        case isTrue => cases h
        case isFalse =>
          obtain ⟨pairs, hpairs, h⟩ := Option.bind_eq_some_iff.mp h
          cases h
          exact .map fun p hp => hb.opened hitems p.2 (mem_of_pairUp hpairs p hp)
  case h_7 =>
    generalize (if tagged = true then depth + 1 else depth) = inner at h
    split at h
    case isTrue => cases h
    case isFalse =>
      obtain ⟨⟨content, r'⟩, hcontent, h⟩ := Option.bind_eq_some_iff.mp h
      cases h
      exact .tag (hb.item hcontent)
  case h_8 =>
    split at h
    · cases h; exact .float
    · cases h; exact .simple

theorem ReadsBounded.items_succ {count : Nat} {xs : List Item}
    (h : items? (fuel + 1) depth count bytes = some (xs, rest)) :
    xs.length = count ∧ ∀ x ∈ xs, Bounded x := by
  cases count with
  | zero =>
      rw [items?] at h
      cases h
      exact ⟨rfl, List.forall_mem_nil _⟩
  | succ count =>
      rw [items?] at h
      obtain ⟨⟨x, r⟩, hitem, h⟩ := Option.bind_eq_some_iff.mp h
      obtain ⟨⟨more, r'⟩, hitems, h⟩ := Option.bind_eq_some_iff.mp h
      cases h
      obtain ⟨hlength, hall⟩ := hb.items hitems
      exact ⟨congrArg (· + 1) hlength, List.forall_mem_cons.mpr ⟨hb.item hitem, hall⟩⟩

theorem ReadsBounded.opened_succ {xs : List Item} (h : open? (fuel + 1) depth bytes = some (xs, rest)) :
    ∀ x ∈ xs, Bounded x := by
  rw [open?] at h
  split at h
  case isTrue =>
    cases h
    exact List.forall_mem_nil _
  case isFalse =>
    obtain ⟨⟨x, r⟩, hitem, h⟩ := Option.bind_eq_some_iff.mp h
    obtain ⟨⟨more, r'⟩, hitems, h⟩ := Option.bind_eq_some_iff.mp h
    cases h
    exact List.forall_mem_cons.mpr ⟨hb.item hitem, hb.opened hitems⟩

end Step

/-- What is read with any fuel is bounded. -/
theorem readsBounded (fuel : Nat) : ReadsBounded fuel := by
  induction fuel with
  | zero =>
      refine ⟨fun h => ?_, fun {depth count} _ _ _ h => ?_, fun h => ?_⟩
      · rw [item?] at h
        cases h
      · cases count with
        | zero =>
            rw [items?] at h
            cases h
            exact ⟨rfl, List.forall_mem_nil _⟩
        | succ count =>
            rw [items?] at h
            cases h
      · rw [open?] at h
        cases h
  | succ fuel ih => exact ⟨ih.item_succ, ih.items_succ, ih.opened_succ⟩

theorem bounded_of_decode? {bytes : List UInt8} {x : Item} (h : decode? bytes = some x) :
    Bounded x := by
  rw [decode?] at h
  split at h
  case h_1 item hitem =>
    cases h
    exact (readsBounded _).item hitem
  case h_2 => cases h

end BlockLang.Cbor

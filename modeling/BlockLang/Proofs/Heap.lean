import BlockLang.Machine.Step
import Mathlib.Data.List.Count

/-! The heap and its roots. The roots of a heap are the values that refer to it; the heap counts them
when every live record has as many references as it has roots, and every root refers to a live
record. Each operation on the heap adds or removes one root, and leaves the content of all others
alone: this is all that the machine needs to know about its heap. -/

namespace BlockLang

namespace Heap

/-- The freed numbers are, each once, the numbers in use that have no record. -/
structure Sound (h : Heap) : Prop where
  nodup : h.free.Nodup
  mem_free : ∀ id, id ∈ h.free ↔ h.records[id]? = some none

def content? (h : Heap) (id : Nat) : Option String := (h.find? id).map (·.content)

/-- The reference counts are the numbers of roots. -/
def Counts (h : Heap) (roots : List Value) : Prop :=
  ∀ id, (h.find? id).map (·.refs) =
    if roots.count (.heap id) = 0 then none else some (roots.count (.heap id))

theorem sound_empty : ({} : Heap).Sound := by
  refine ⟨List.nodup_nil, fun id => ?_⟩
  simp

theorem counts_empty {roots : List Value} (h : ∀ id, roots.count (.heap id) = 0) :
    ({} : Heap).Counts roots := by
  intro id
  rw [if_pos (h id)]
  simp [find?]

theorem find?_eq_some {h : Heap} {id : Nat} {r : HeapRecord} :
    h.find? id = some r ↔ h.records[id]? = some (some r) := by
  rw [find?]
  cases h.records[id]? with
  | none => simp
  | some r' => simp

theorem lt_size_of_find? {h : Heap} {id : Nat} {r : HeapRecord} (hr : h.find? id = some r) :
    id < h.records.size := by
  rw [find?_eq_some] at hr
  exact (Array.getElem?_eq_some_iff.mp hr).1

theorem find?_set (h : Heap) (free : List Nat) {id : Nat} (hid : id < h.records.size)
    (r : Option HeapRecord) (j : Nat) :
    find? ⟨h.records.setIfInBounds id r, free⟩ j = if id = j then r else h.find? j := by
  simp only [find?, Array.getElem?_setIfInBounds]
  split_ifs with hj
  · rfl
  · rfl

theorem Sound.find?_free {h : Heap} (hs : h.Sound) {id : Nat} (hid : id ∈ h.free) :
    h.find? id = none := by
  rw [find?, (hs.mem_free id).mp hid]
  rfl

/-- The number of a new record belonged to no live one. -/
theorem Sound.find?_alloc_fst {h : Heap} (hs : h.Sound) (s : String) :
    h.find? (h.alloc s).1 = none := by
  rw [alloc]
  split
  · rename_i id free hfree
    exact hs.find?_free (by rw [hfree]; exact List.mem_cons_self)
  · simp [find?]

theorem Sound.find?_alloc {h : Heap} (hs : h.Sound) (s : String) (j : Nat) :
    (h.alloc s).2.find? j = if (h.alloc s).1 = j then some ⟨s, 1⟩ else h.find? j := by
  rw [alloc]
  split
  · rename_i id free hfree
    have hid := (hs.mem_free id).mp (by rw [hfree]; exact List.mem_cons_self)
    exact find?_set h free (Array.getElem?_eq_some_iff.mp hid).1 _ j
  · simp only [find?, Array.getElem?_push]
    by_cases hj : h.records.size = j
    · simp [hj]
    · rw [if_neg hj, if_neg fun h => hj h.symm]

/-- Storing a string keeps the heap sound, in a free record or in a new one. -/
theorem Sound.alloc {h : Heap} (hs : h.Sound) (s : String) : (h.alloc s).2.Sound := by
  rw [Heap.alloc]
  split
  · rename_i id free hfree
    have hnodup := hs.nodup
    have hmem := hs.mem_free
    rw [hfree, List.nodup_cons] at hnodup
    simp only [hfree, List.mem_cons] at hmem
    refine ⟨hnodup.2, fun j => ?_⟩
    have hid := (hmem id).mp (Or.inl rfl)
    simp only [Array.getElem?_setIfInBounds, (Array.getElem?_eq_some_iff.mp hid).1, if_true]
    by_cases hj : id = j
    · subst hj
      simp [hnodup.1]
    · rw [if_neg hj, ← hmem j]
      exact ⟨Or.inr, fun h => h.resolve_left fun he => hj he.symm⟩
  · rename_i hfree
    refine ⟨List.nodup_nil, fun j => ?_⟩
    have hmem := hs.mem_free j
    rw [hfree] at hmem
    simp only [Array.getElem?_push]
    split_ifs with hj
    · simp
    · exact hmem

theorem incr?_eq {h : Heap} {id : Nat} {r : HeapRecord} (hr : h.find? id = some r) :
    h.incr? id =
      some { h with records := h.records.setIfInBounds id (some { r with refs := r.refs + 1 }) } := by
  rw [incr?, hr]
  rfl

theorem Sound.incr {h : Heap} (hs : h.Sound) {id : Nat} {r r' : HeapRecord}
    (hr : h.find? id = some r) :
    Sound { h with records := h.records.setIfInBounds id (some r') } := by
  have hlt := lt_size_of_find? hr
  rw [find?_eq_some] at hr
  refine ⟨hs.nodup, fun j => ?_⟩
  rw [hs.mem_free j]
  simp only [Array.getElem?_setIfInBounds, hlt, if_true]
  by_cases hj : id = j
  · subst hj
    simp [hr]
  · rw [if_neg hj]

/-- Freeing a live record keeps the heap sound. -/
theorem Sound.free {h : Heap} (hs : h.Sound) {id : Nat} {r : HeapRecord}
    (hr : h.find? id = some r) :
    Sound ⟨h.records.setIfInBounds id none, id :: h.free⟩ := by
  have hlt := lt_size_of_find? hr
  rw [find?_eq_some] at hr
  have hid : id ∉ h.free := by
    rw [hs.mem_free id, hr]
    simp
  refine ⟨List.nodup_cons.mpr ⟨hid, hs.nodup⟩, fun j => ?_⟩
  simp only [Array.getElem?_setIfInBounds, hlt, if_true, List.mem_cons]
  by_cases hj : id = j
  · simp [hj]
  · rw [if_neg hj, ← hs.mem_free j]
    exact ⟨fun h => h.resolve_left fun he => hj he.symm, Or.inr⟩

theorem Counts.exists_of_mem {h : Heap} {roots : List Value} (hc : h.Counts roots) {id : Nat}
    (hid : .heap id ∈ roots) : ∃ r, h.find? id = some r ∧ r.refs = roots.count (.heap id) := by
  have hpos : roots.count (.heap id) ≠ 0 := by
    have := List.count_pos_iff.mpr hid
    omega
  have hcount := hc id
  rw [if_neg hpos, Option.map_eq_some_iff] at hcount
  exact hcount

theorem Counts.congr {h : Heap} {roots roots' : List Value} (hc : h.Counts roots)
    (heq : ∀ id, roots'.count (.heap id) = roots.count (.heap id)) : h.Counts roots' := by
  intro id
  rw [heq id]
  exact hc id

/-- A further reference to a root. -/
theorem Counts.incr {h : Heap} {roots : List Value} (hs : h.Sound) (hc : h.Counts roots) {id : Nat}
    (hid : .heap id ∈ roots) :
    ∃ h', h.incr? id = some h' ∧ h'.Sound ∧ h'.Counts (.heap id :: roots) ∧
      ∀ j, h'.content? j = h.content? j := by
  obtain ⟨r, hr, hrefs⟩ := hc.exists_of_mem hid
  have hlt := lt_size_of_find? hr
  refine ⟨_, incr?_eq hr, hs.incr hr, fun j => ?_, fun j => ?_⟩
  · rw [find?_set h _ hlt, List.count_cons]
    by_cases hj : id = j
    · subst hj
      simp [hrefs]
    · simp only [if_neg hj, hc j, beq_iff_eq, Value.heap.injEq, Nat.add_zero]
  · rw [content?, find?_set h _ hlt]
    split_ifs with hj
    · subst hj
      rw [content?, hr]
      rfl
    · rfl

/-- A reference less: the record stays as long as it has another root. -/
theorem Counts.decr {h : Heap} {roots : List Value} {id : Nat} (hs : h.Sound)
    (hc : h.Counts (.heap id :: roots)) :
    ∃ h', h.decr? id = some h' ∧ h'.Sound ∧ h'.Counts roots ∧
      ∀ j, .heap j ∈ roots → h'.content? j = h.content? j := by
  obtain ⟨r, hr, hrefs⟩ := hc.exists_of_mem List.mem_cons_self
  have hlt := lt_size_of_find? hr
  rw [List.count_cons_self] at hrefs
  have hother : ∀ j, id ≠ j → (h.find? j).map (·.refs) =
      if roots.count (.heap j) = 0 then none else some (roots.count (.heap j)) := by
    intro j hj
    have hcj := hc j
    rwa [List.count_cons_of_ne (by simpa using hj)] at hcj
  rw [decr?, hr, Option.map_some]
  by_cases hone : r.refs ≤ 1
  · rw [if_pos hone]
    have hzero : roots.count (.heap id) = 0 := by omega
    refine ⟨_, rfl, hs.free hr, fun j => ?_, fun j hj => ?_⟩
    · rw [find?_set h _ hlt]
      by_cases hij : id = j
      · subst hij
        simp [hzero]
      · rw [if_neg hij, hother j hij]
    · have hij : id ≠ j := by
        intro hij
        subst hij
        exact List.count_eq_zero.mp hzero hj
      rw [content?, find?_set h _ hlt, if_neg hij]
      rfl
  · rw [if_neg hone]
    refine ⟨_, rfl, hs.incr hr, fun j => ?_, fun j _ => ?_⟩
    · rw [find?_set h _ hlt]
      by_cases hij : id = j
      · subst hij
        have hne : roots.count (.heap id) ≠ 0 := by omega
        simp [hrefs, hne]
      · rw [if_neg hij, hother j hij]
    · rw [content?, find?_set h _ hlt]
      split_ifs with hij
      · subst hij
        rw [content?, hr]
        rfl
      · rfl

/-- A new record has one root, and is none of the old ones. -/
theorem Counts.alloc {h : Heap} {roots : List Value} (hs : h.Sound) (hc : h.Counts roots)
    (s : String) :
    (h.alloc s).2.Counts (.heap (h.alloc s).1 :: roots) ∧
      (h.alloc s).2.content? (h.alloc s).1 = some s ∧
      ∀ j, .heap j ∈ roots → (h.alloc s).2.content? j = h.content? j := by
  have hfresh := hc (h.alloc s).1
  rw [hs.find?_alloc_fst s, Option.map_none] at hfresh
  have hzero : roots.count (.heap (h.alloc s).1) = 0 := by
    by_contra hne
    rw [if_neg hne] at hfresh
    cases hfresh
  refine ⟨fun j => ?_, ?_, fun j hj => ?_⟩
  · rw [hs.find?_alloc s j]
    by_cases hj : (h.alloc s).1 = j
    · subst hj
      simp [hzero]
    · rw [if_neg hj, List.count_cons_of_ne (by simpa using hj), hc j]
  · rw [content?, hs.find?_alloc s, if_pos rfl]
    rfl
  · have hne : (h.alloc s).1 ≠ j := by
      intro hne
      subst hne
      exact List.count_eq_zero.mp hzero hj
    rw [content?, hs.find?_alloc s j, if_neg hne]
    rfl

end Heap

end BlockLang

import BlockLang.Proofs.Heap
import Mathlib.Data.List.Induction

/-! The lives of heap records. A number is handed out, counted up and down, freed, and handed out again,
and requests may name it at any time. Each request is described once by what it does to the records; the
heap that any requests leave behind is then described by the requests alone: the content of a record is
what was stored when its number was last handed out, and its count is what the requests since then add
up to. -/

namespace BlockLang.Heap

/-- What a request does: it concerns one record at most, and a number without a record is refused. -/
inductive Effect (h : Heap) : Request → Answer → Heap → Prop where
  | alloc {s : String} {id : Nat} {h' : Heap} : h.find? id = none →
      (∀ j, h'.find? j = if id = j then some ⟨s, 1⟩ else h.find? j) →
      Effect h (.alloc s) (.allocated id) h'
  | incr {id : Nat} {r : HeapRecord} {h' : Heap} : h.find? id = some r →
      (∀ j, h'.find? j = if id = j then some { r with refs := r.refs + 1 } else h.find? j) →
      Effect h (.incr id) .done h'
  | decr {id : Nat} {r : HeapRecord} {h' : Heap} : h.find? id = some r → 1 < r.refs →
      (∀ j, h'.find? j = if id = j then some { r with refs := r.refs - 1 } else h.find? j) →
      Effect h (.decr id) .done h'
  | free {id : Nat} {r : HeapRecord} {h' : Heap} : h.find? id = some r → r.refs = 1 →
      (∀ j, h'.find? j = if id = j then none else h.find? j) →
      Effect h (.decr id) .done h'
  | content {id : Nat} {r : HeapRecord} : h.find? id = some r →
      Effect h (.content id) (.content r.content) h
  | refs {id : Nat} {r : HeapRecord} : h.find? id = some r → Effect h (.refs id) (.refs r.refs) h
  | live : Effect h .live (.live h.live) h
  | refused {request : Request} {id : Int} :
      request ∈ [.incr id, .decr id, .content id, .refs id] →
      (∀ n : Nat, id = n → h.find? n = none) → Effect h request (.notLive id) h

/-- The free numbers and the numbers of the records are as they should be, and no record is unused. -/
structure Tidy (h : Heap) : Prop extends h.Sound where
  counted : ∀ {id : Nat} {r : HeapRecord}, h.find? id = some r → 1 ≤ r.refs

theorem tidy_empty : ({} : Heap).Tidy :=
  ⟨sound_empty, fun hr => by simp [find?] at hr⟩

/-- A number from outside has a record, or a request for it is refused. -/
theorem withLive_cases (h : Heap) (id : Int) (act : Nat → HeapRecord → Answer × Heap) :
    (∃ (n : Nat) (r : HeapRecord), id = n ∧ h.find? n = some r ∧ h.withLive id act = act n r) ∨
      (∀ n : Nat, id = n → h.find? n = none) ∧ h.withLive id act = (.notLive id, h) := by
  rw [withLive]
  by_cases hneg : id < 0
  · rw [if_pos hneg]
    exact .inr ⟨fun n hn => by omega, rfl⟩
  · rw [if_neg hneg]
    have hid : id = (id.toNat : Int) := by omega
    cases hr : h.find? id.toNat with
    | some r => exact .inl ⟨id.toNat, r, hid, hr, rfl⟩
    | none =>
        refine .inr ⟨fun n hn => ?_, rfl⟩
        rw [← hr, hn, Int.toNat_natCast]

theorem Tidy.alloc {h : Heap} (ht : h.Tidy) (s : String) : (h.alloc s).2.Tidy := by
  refine ⟨ht.toSound.alloc s, fun {id r} hr => ?_⟩
  rw [ht.find?_alloc s id] at hr
  split_ifs at hr
  · cases hr
    exact Nat.le_refl 1
  · exact ht.counted hr

/-- Counting up a live record has just that effect; every other number is refused. -/
theorem serve_incr {h : Heap} (ht : h.Tidy) (id : Int) :
    (h.serve (.incr id)).2.Tidy ∧ Effect h (.incr id) (h.serve (.incr id)).1 (h.serve (.incr id)).2 := by
  rw [serve]
  rcases withLive_cases h id fun n _ => (.done, (h.incr? n).getD h) with
    ⟨n, r, rfl, hr, hserve⟩ | ⟨hnone, hserve⟩
  · rw [hserve, incr?_eq hr]
    have hfind := find?_set h h.free (lt_size_of_find? hr) (some { r with refs := r.refs + 1 })
    refine ⟨⟨ht.toSound.incr hr, fun {j r'} hr' => ?_⟩, .incr hr hfind⟩
    rw [Option.getD_some, hfind j] at hr'
    split_ifs at hr'
    · cases hr'
      exact Nat.le_add_left 1 r.refs
    · exact ht.counted hr'
  · rw [hserve]
    exact ⟨ht, .refused (by simp) hnone⟩

/-- Counting down frees a record whose count comes to zero. -/
theorem serve_decr {h : Heap} (ht : h.Tidy) (id : Int) :
    (h.serve (.decr id)).2.Tidy ∧ Effect h (.decr id) (h.serve (.decr id)).1 (h.serve (.decr id)).2 := by
  rw [serve]
  rcases withLive_cases h id fun n _ => (.done, (h.decr? n).getD h) with
    ⟨n, r, rfl, hr, hserve⟩ | ⟨hnone, hserve⟩
  · have hpos := ht.counted hr
    rw [hserve, decr?, hr]
    by_cases hone : r.refs ≤ 1
    · have hfind := find?_set h (n :: h.free) (lt_size_of_find? hr) none
      simp only [Option.map_some, if_pos hone, Option.getD_some]
      refine ⟨⟨ht.toSound.free hr, fun {j r'} hr' => ?_⟩, .free hr (by omega) hfind⟩
      rw [hfind j] at hr'
      split_ifs at hr'
      exact ht.counted hr'
    · have hfind := find?_set h h.free (lt_size_of_find? hr) (some { r with refs := r.refs - 1 })
      simp only [Option.map_some, if_neg hone, Option.getD_some]
      refine ⟨⟨ht.toSound.incr hr, fun {j r'} hr' => ?_⟩, .decr hr (by omega) hfind⟩
      rw [hfind j] at hr'
      split_ifs at hr'
      · cases hr'
        show 1 ≤ r.refs - 1
        omega
      · exact ht.counted hr'
  · rw [hserve]
    exact ⟨ht, .refused (by simp) hnone⟩

/-- Every request has its effect, and leaves a tidy heap. -/
theorem Tidy.serve {h : Heap} (ht : h.Tidy) (request : Request) :
    (h.serve request).2.Tidy ∧ Effect h request (h.serve request).1 (h.serve request).2 := by
  cases request with
  | alloc s => exact ⟨ht.alloc s, .alloc (ht.find?_alloc_fst s) (ht.find?_alloc s)⟩
  | incr id => exact serve_incr ht id
  | decr id => exact serve_decr ht id
  | content id =>
      rw [Heap.serve]
      rcases withLive_cases h id fun _ r => (.content r.content, h) with
        ⟨n, r, rfl, hr, hserve⟩ | ⟨hnone, hserve⟩
      · rw [hserve]
        exact ⟨ht, .content hr⟩
      · rw [hserve]
        exact ⟨ht, .refused (by simp) hnone⟩
  | refs id =>
      rw [Heap.serve]
      rcases withLive_cases h id fun _ r => (.refs r.refs, h) with
        ⟨n, r, rfl, hr, hserve⟩ | ⟨hnone, hserve⟩
      · rw [hserve]
        exact ⟨ht, .refs hr⟩
      · rw [hserve]
        exact ⟨ht, .refused (by simp) hnone⟩
  | live => exact ⟨ht, .live⟩

def after (h : Heap) : List Request → Heap
  | [] => h
  | request :: rest => after (h.serve request).2 rest

def history (h : Heap) : List Request → List (Request × Answer)
  | [] => []
  | request :: rest => (request, (h.serve request).1) :: history (h.serve request).2 rest

theorem after_concat (h : Heap) (requests : List Request) (request : Request) :
    after h (requests ++ [request]) = ((after h requests).serve request).2 := by
  induction requests generalizing h with
  | nil => rfl
  | cons first rest ih => exact ih (h.serve first).2

theorem history_concat (h : Heap) (requests : List Request) (request : Request) :
    history h (requests ++ [request]) =
      history h requests ++ [(request, ((after h requests).serve request).1)] := by
  induction requests generalizing h with
  | nil => rfl
  | cons first rest ih => exact congrArg _ (ih (h.serve first).2)

/-- A record is what its history says: it holds the content that came with its number when that was
last handed out, and its count began with one and went up and down with the requests since then. -/
def Accounts (entries : List (Request × Answer)) (id : Nat) (r : HeapRecord) : Prop :=
  ∃ before since, entries = before ++ (.alloc r.content, .allocated id) :: since ∧
    (∀ entry ∈ since, entry.2 ≠ .allocated id) ∧
    r.refs + (since.map Prod.fst).count (.decr id) = 1 + (since.map Prod.fst).count (.incr id)

/-- A request that does not hand out the number of a record changes its count as it says. -/
theorem Accounts.concat {entries : List (Request × Answer)} {id : Nat} {r r' : HeapRecord}
    {entry : Request × Answer} (h : Accounts entries id r) (hcontent : r'.content = r.content)
    (hentry : entry.2 ≠ .allocated id)
    (hrefs : r'.refs + [entry.1].count (.decr id) = r.refs + [entry.1].count (.incr id)) :
    Accounts (entries ++ [entry]) id r' := by
  obtain ⟨before, since, rfl, hsince, hcount⟩ := h
  refine ⟨before, since ++ [entry], by rw [hcontent, List.append_assoc]; rfl, fun e he => ?_, ?_⟩
  · rcases List.mem_append.mp he with hmem | hmem
    · exact hsince e hmem
    · rw [List.mem_singleton.mp hmem]
      exact hentry
  · rw [List.map_append, List.count_append, List.count_append, List.map_singleton]
    omega

/-- What one request does to the records agrees with the history that it prolongs. -/
theorem Effect.accounts {h h' : Heap} {request : Request} {answer : Answer}
    {entries : List (Request × Answer)} (heffect : Effect h request answer h')
    (hold : ∀ {id r}, h.find? id = some r → Accounts entries id r) {id : Nat} {r : HeapRecord}
    (hr : h'.find? id = some r) : Accounts (entries ++ [(request, answer)]) id r := by
  cases heffect with
  | @alloc s new h' hnone hfind =>
      rw [hfind id] at hr
      split_ifs at hr with hid
      · cases hr
        cases hid
        exact ⟨entries, [], rfl, List.forall_mem_nil _, rfl⟩
      · exact (hold hr).concat rfl (fun heq => hid (Answer.allocated.inj heq)) (by simp)
  | @incr n r₀ h' hlive hfind =>
      rw [hfind id] at hr
      split_ifs at hr with hid
      · cases hr
        cases hid
        exact (hold hlive).concat rfl (by simp) (by simp)
      · have hne : (n : Int) ≠ id := by omega
        exact (hold hr).concat rfl (by simp) (by simp [hne])
  | @decr n r₀ h' hlive hmore hfind =>
      rw [hfind id] at hr
      split_ifs at hr with hid
      · cases hr
        cases hid
        have hrefs : r₀.refs - 1 + 1 = r₀.refs := by omega
        exact (hold hlive).concat rfl (by simp) (by simpa using hrefs)
      · have hne : (n : Int) ≠ id := by omega
        exact (hold hr).concat rfl (by simp) (by simp [hne])
  | @free n r₀ h' hlive hone hfind =>
      rw [hfind id] at hr
      split_ifs at hr with hid
      have hne : (n : Int) ≠ id := by omega
      exact (hold hr).concat rfl (by simp) (by simp [hne])
  | content hlive => exact (hold hr).concat rfl (by simp) (by simp)
  | refs hlive => exact (hold hr).concat rfl (by simp) (by simp)
  | live => exact (hold hr).concat rfl (by simp) (by simp)
  | @refused request n hmem hnone =>
      have hne : n ≠ id := by
        rintro rfl
        rw [hnone id rfl] at hr
        cases hr
      refine (hold hr).concat rfl (by simp) ?_
      simp only [List.mem_cons, List.not_mem_nil, or_false] at hmem
      rcases hmem with rfl | rfl | rfl | rfl <;> simp [hne]

/-- The heap is tidy after any requests, and its records are what their histories say. -/
theorem after_empty (requests : List Request) :
    (after {} requests).Tidy ∧
      ∀ {id r}, (after {} requests).find? id = some r → Accounts (history {} requests) id r := by
  induction requests using List.reverseRecOn with
  | nil => exact ⟨tidy_empty, fun hr => by simp [after, find?] at hr⟩
  | append_singleton earlier request ih =>
      obtain ⟨htidy, heffect⟩ := ih.1.serve request
      rw [after_concat, history_concat]
      exact ⟨htidy, heffect.accounts ih.2⟩

theorem Sound.lt_size_iff {h : Heap} (hs : h.Sound) (id : Nat) :
    id < h.records.size ↔ id ∈ h.free ∨ (h.find? id).isSome := by
  rw [hs.mem_free id, find?]
  by_cases hlt : id < h.records.size
  · rw [Array.getElem?_eq_getElem hlt]
    cases h.records[id] with
    | none => simp [hlt]
    | some r => simp [hlt]
  · rw [Array.getElem?_eq_none (by omega)]
    simp [hlt]

theorem map_find?_range (h : Heap) : (List.range h.records.size).map h.find? = h.records.toList := by
  refine List.ext_getElem (by simp) fun id hid hid' => ?_
  have hlt : id < h.records.size := by simpa using hid'
  simp [find?, hlt]

/-- The number of live records is that of the numbers under which one is found. -/
theorem live_eq_countP (h : Heap) :
    h.live = (List.range h.records.size).countP fun id => (h.find? id).isSome := by
  have hfold : ∀ (rs : List (Option HeapRecord)) (n : Nat),
      rs.foldl (fun n r => if r.isSome then n + 1 else n) n = n + rs.countP (·.isSome) := by
    intro rs
    induction rs with
    | nil => exact fun _ => rfl
    | cons r rs ih =>
        intro n
        rw [List.foldl_cons, ih, List.countP_cons]
        cases r with
        | none => simp
        | some r =>
            simp only [Option.isSome_some, ↓reduceIte]
            omega
  rw [live, ← Array.foldl_toList, hfold, Nat.zero_add, ← map_find?_range h, List.countP_map]
  rfl

/-- Whatever is asked of a new heap, and whatever of it is refused: the records are what their histories
say and none of them is unused, the free numbers are listed once and have no record, and together with
those of the records they are all numbers so far. Whatever is asked next has its effect and no other. -/
theorem after_keeps_records (requests : List Request) :
    let h := after {} requests
    (∀ id r, h.find? id = some r → 1 ≤ r.refs ∧ Accounts (history {} requests) id r) ∧
    h.free.Nodup ∧ (∀ id ∈ h.free, h.find? id = none) ∧
    (∀ id, id < h.records.size ↔ id ∈ h.free ∨ (h.find? id).isSome) ∧
    h.live = (List.range h.records.size).countP (fun id => (h.find? id).isSome) ∧
    ∀ request, Effect h request (h.serve request).1 (h.serve request).2 := by
  intro h
  obtain ⟨htidy, haccounts⟩ := after_empty requests
  exact ⟨fun id r hr => ⟨htidy.counted hr, haccounts hr⟩, htidy.nodup, fun id => htidy.find?_free,
    htidy.lt_size_iff, live_eq_countP h, fun request => (htidy.serve request).2⟩

/-- A number that was freed comes back with another content, and refuses nothing then. -/
example :
    history {} [.alloc "a", .incr 0, .decr 0, .decr 0, .refs 0, .alloc "b", .content 0, .incr (-1), .live] =
      [(.alloc "a", .allocated 0), (.incr 0, .done), (.decr 0, .done), (.decr 0, .done),
        (.refs 0, .notLive 0), (.alloc "b", .allocated 0), (.content 0, .content "b"),
        (.incr (-1), .notLive (-1)), (.live, .live 1)] := by
  decide

end BlockLang.Heap

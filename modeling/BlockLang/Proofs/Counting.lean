import BlockLang.Proofs.Heap
import BlockLang.Proofs.Plain

/-! Reference counting. In every state that a run passes through, the roots of the heap are the
values on the stack and in the slots. While an instruction is performed some values are in neither:
they are in hand. Each piece of an instruction moves roots between these three places, and shows on
the plain machine as what it does to values. -/

namespace BlockLang

/-- The plain form of a value: the content of a counted string takes the place of its number. -/
def Value.plain (h : Heap) : Value → Plain.Value
  | unit => .unit
  | int n => .int n
  | bool b => .bool b
  | const index => .const index
  | heap id => .text ((h.content? id).getD "")

/-- Whether a fault is the doing of the heap rather than of the code. -/
def Fault.OfHeap : Fault → Prop
  | notLive _ | leaked _ => True
  | _ => False

namespace MachineState

/-- The values that refer to the heap, with some values in hand. -/
def roots (s : MachineState) (hand : List Value) : List Value := hand ++ (s.stack ++ s.slots.toList)

/-- The heap counts the values in hand, on the stack and in the slots. -/
structure Counted (hand : List Value) (s : MachineState) : Prop where
  sound : s.heap.Sound
  counts : s.heap.Counts (s.roots hand)

def plain (s : MachineState) : Plain.State where
  ip := s.ip
  stack := s.stack.map (Value.plain s.heap)
  slots := s.slots.map (Value.plain s.heap)
  output := s.output

variable {s : MachineState} {hand : List Value}

theorem Counted.congr {s' : MachineState} {hand' : List Value} (hc : s.Counted hand)
    (hheap : s'.heap = s.heap)
    (hroots : ∀ id, (s'.roots hand').count (.heap id) = (s.roots hand).count (.heap id)) :
    s'.Counted hand' := by
  refine ⟨by rw [hheap]; exact hc.sound, ?_⟩
  rw [hheap]
  exact hc.counts.congr hroots

theorem plain_withHeap {h : Heap}
    (hsame : ∀ v ∈ s.stack ++ s.slots.toList, v.plain h = v.plain s.heap) :
    { s with heap := h }.plain = s.plain := by
  have hstack : s.stack.map (Value.plain h) = s.stack.map (Value.plain s.heap) :=
    List.map_congr_left fun v hv => hsame v (List.mem_append_left _ hv)
  have hslots : s.slots.map (Value.plain h) = s.slots.map (Value.plain s.heap) :=
    Array.map_congr_left fun v hv => hsame v (List.mem_append_right _ (by simpa using hv))
  simp only [plain, hstack, hslots]

end MachineState

namespace Value

theorem plain_congr {h h' : Heap} {v : Value}
    (hsame : ∀ id, v = .heap id → h'.content? id = h.content? id) : v.plain h' = v.plain h := by
  cases v with
  | heap id => rw [plain, plain, hsame id rfl]
  | _ => rfl

theorem equal?_plain (h : Heap) (a b : Value) :
    (a.plain h).equal? (b.plain h) = Exec.equal? a b := by
  cases a <;> cases b <;> rfl

end Value

namespace Exec

variable {s : MachineState} {hand : List Value} {α β : Type}

theorem bind_apply (x : Exec α) (f : α → Exec β) (s : MachineState) :
    (x >>= f) s = match x s with
      | .ok (a, s') => f a s'
      | .error e => .error e := by
  show (x s).bind _ = _
  cases x s <;> rfl

theorem pure_apply (a : α) (s : MachineState) : (pure a : Exec α) s = .ok (a, s) := rfl

theorem get_apply (s : MachineState) : (get : Exec MachineState) s = .ok (s, s) := rfl

/-- Giving up a value that is in hand succeeds, and no other value changes its meaning. -/
theorem release_counted {v : Value} (hc : s.Counted (v :: hand)) :
    ∃ h : Heap, (∀ t : MachineState, t.heap = s.heap → release v t = .ok ((), { t with heap := h })) ∧
      { s with heap := h }.Counted hand ∧ ∀ w ∈ s.roots hand, w.plain h = w.plain s.heap := by
  cases v with
  | heap id =>
      obtain ⟨h, hdecr, hsound, hcounts, hsame⟩ := Heap.Counts.decr hc.sound hc.counts
      refine ⟨h, fun t ht => ?_, ⟨hsound, hcounts⟩,
        fun w hw => Value.plain_congr fun j hj => hsame j (hj ▸ hw)⟩
      simp only [release, ht, hdecr]
  | _ =>
      refine ⟨s.heap, fun t ht => ?_, hc.congr rfl fun id => ?_, fun w _ => rfl⟩
      · simp only [release, pure_apply, ← ht]
      · simp [MachineState.roots]

/-- Keeping a value that is in use succeeds, and puts it in hand. -/
theorem retain_counted {v : Value} (hc : s.Counted hand) (hv : v ∈ s.roots hand) :
    ∃ h, retain v s = .ok ((), { s with heap := h }) ∧ { s with heap := h }.Counted (v :: hand) ∧
      ∀ w : Value, w.plain h = w.plain s.heap := by
  cases v with
  | heap id =>
      obtain ⟨h, hincr, hsound, hcounts, hsame⟩ := Heap.Counts.incr hc.sound hc.counts hv
      refine ⟨h, ?_, ⟨hsound, hcounts⟩, fun w => Value.plain_congr fun j _ => hsame j⟩
      simp only [retain, hincr]
  | _ =>
      refine ⟨s.heap, rfl, hc.congr rfl fun id => ?_, fun w => rfl⟩
      simp [MachineState.roots]

/-- A new string. -/
theorem pushNew_counted (hc : s.Counted hand) (text : String) :
    ∃ h id, pushNew text s = .ok ((), { s with heap := h, stack := .heap id :: s.stack }) ∧
      { s with heap := h, stack := .heap id :: s.stack }.Counted hand ∧
      (Value.heap id).plain h = .text text ∧
      ∀ w ∈ s.roots hand, w.plain h = w.plain s.heap := by
  obtain ⟨hcounts, hnew, hsame⟩ := Heap.Counts.alloc hc.sound hc.counts text
  refine ⟨(s.heap.alloc text).2, (s.heap.alloc text).1, rfl, ⟨hc.sound.alloc text, ?_⟩, ?_, ?_⟩
  · refine hcounts.congr fun id => ?_
    simp only [MachineState.roots, List.count_append, List.count_cons]
    omega
  · rw [Value.plain, hnew]
    rfl
  · intro w hw
    exact Value.plain_congr fun j hj => hsame j (hj ▸ hw)

/-- A value is put into a slot, and the one that was there is given up. -/
theorem setSlot_counted {v old : Value} {k : Nat} (hc : s.Counted (v :: hand))
    (hold : s.slots[k]? = some old) :
    ∃ h : Heap, (do release old; setSlot k v : Exec Unit) s =
        .ok ((), { s with heap := h, slots := s.slots.setIfInBounds k v }) ∧
      { s with heap := h, slots := s.slots.setIfInBounds k v }.Counted hand ∧
      ∀ w ∈ { s with slots := s.slots.setIfInBounds k v }.roots hand, w.plain h = w.plain s.heap := by
  have hswap : { s with slots := s.slots.setIfInBounds k v }.Counted (old :: hand) := by
    refine hc.congr rfl fun id => ?_
    obtain ⟨hk, hold⟩ := Array.getElem?_eq_some_iff.mp hold
    have hset : ∀ w : Value, (s.slots.toList.set k v).count w + (if old == w then 1 else 0) =
        s.slots.toList.count w + (if v == w then 1 else 0) := by
      intro w
      have hk' : k < s.slots.toList.length := by simpa using hk
      have hpos : (if old == w then 1 else 0) ≤ s.slots.toList.count w := by
        split_ifs with how
        · rw [beq_iff_eq] at how
          rw [Nat.one_le_iff_ne_zero, ← Nat.pos_iff_ne_zero, List.count_pos_iff, ← how, ← hold]
          simp
        · exact Nat.zero_le _
      rw [List.count_set hk', Array.getElem_toList, hold]
      omega
    have hid := hset (.heap id)
    simp only [MachineState.roots, List.count_append, List.count_cons,
      Array.toList_setIfInBounds] at hid ⊢
    omega
  obtain ⟨h, hrel, hcounted, hsame⟩ := release_counted hswap
  refine ⟨h, ?_, hcounted, hsame⟩
  rw [bind_apply, hrel s rfl]
  rfl

/-- The content of a value that is in use. -/
theorem textOf_counted {v : Value} (hc : s.Counted hand) (hv : v ∈ s.roots hand) (p : Program) :
    match (v.plain s.heap).string? p with
    | some text => textOf p v s = .ok (text, s)
    | none => ∃ f, textOf p v s = .error f ∧ ¬f.OfHeap := by
  cases v with
  | const index =>
      simp only [Value.plain, Plain.Value.string?, textOf]
      cases p.constant? index with
      | some text => rfl
      | none => exact ⟨_, rfl, id⟩
  | heap id =>
      obtain ⟨r, hr, -⟩ := hc.counts.exists_of_mem hv
      simp [Value.plain, Plain.Value.string?, textOf, Heap.content?, hr]
  | _ => exact ⟨_, rfl, id⟩

theorem shown_counted {v : Value} (hc : s.Counted hand) (hv : v ∈ s.roots hand) (p : Program) :
    match (v.plain s.heap).shown? p with
    | some text => shown p v s = .ok (text, s)
    | none => ∃ f, shown p v s = .error f ∧ ¬f.OfHeap := by
  have htext := textOf_counted hc hv p
  cases v with
  | bool b => cases b <;> rfl
  | unit | int n => rfl
  | const index => exact htext
  | heap id => exact htext

theorem slot_apply (arg : Int64) (s : MachineState) :
    slot arg s = match Plain.index? arg with
      | none => .error .outOfRange
      | some k => match s.slots[k]? with
        | some v => .ok ((k, v), s)
        | none => .error .outOfRange := by
  rw [slot, Plain.index?]
  split_ifs <;> rfl

theorem jump_apply (m : Machine) (label : Int64) (s : MachineState) :
    match Plain.target? m label with
    | some target => jump m label s = .ok ((), { s with ip := target })
    | none => ∃ f, jump m label s = .error f ∧ ¬f.OfHeap := by
  rw [jump, Plain.target?, Plain.index?]
  split_ifs with hneg
  · exact ⟨_, rfl, id⟩
  · simp only [Option.bind_eq_bind, Option.bind_some]
    rcases m.labels[label.toInt.toNat]? with _ | _ | target
    · exact ⟨_, rfl, id⟩
    · exact ⟨_, rfl, id⟩
    · rfl

/-! ### Whole instructions -/

/-- What a piece of an instruction leads to is what the plain machine does: the heap is counted with
nothing in hand, and a fault, which is none of the heap, is a step that cannot be taken. -/
def Mirrors (real : Except Fault (Option RuntimeError × MachineState)) (plain : Plain.Effect) :
    Prop :=
  match real with
  | .ok (e, s) => s.Counted [] ∧ plain = some (e, s.plain)
  | .error f => ¬f.OfHeap ∧ plain = none

theorem mirrors_next {s : MachineState} {p : Plain.State} (hc : s.Counted []) (hp : s.plain = p) :
    Mirrors (.ok (none, s)) (Plain.next p) := by
  subst hp
  exact ⟨hc, rfl⟩

theorem mirrors_error {f : Fault} (hf : ¬f.OfHeap) : Mirrors (.error f) none := ⟨hf, rfl⟩

theorem counted_stack {stack : List Value} (hc : s.Counted hand)
    (hsame : ∀ id, stack.count (.heap id) = s.stack.count (.heap id)) :
    { s with stack := stack }.Counted hand := by
  refine hc.congr rfl fun id => ?_
  simp only [MachineState.roots, List.count_append, hsame id]

theorem counted_take {v : Value} {rest : List Value} (hc : s.Counted hand)
    (hs : s.stack = v :: rest) : { s with stack := rest }.Counted (v :: hand) := by
  refine hc.congr rfl fun id => ?_
  simp only [MachineState.roots, hs, List.count_append, List.count_cons]
  omega

theorem counted_push {v : Value} (hc : s.Counted (v :: hand)) :
    { s with stack := v :: s.stack }.Counted hand := by
  refine hc.congr rfl fun id => ?_
  simp only [MachineState.roots, List.count_append, List.count_cons]
  omega

section Continuations

variable {rest : List Value}

theorem mirrors_pop {k : Value → Exec (Option RuntimeError)}
    {k' : Plain.Value → List Plain.Value → Plain.Effect}
    (h : ∀ v rest, s.stack = v :: rest → Mirrors (k v { s with stack := rest })
      (k' (v.plain s.heap) (rest.map (Value.plain s.heap)))) :
    Mirrors ((pop >>= k) s) (Plain.onTop s.plain.stack k') := by
  rw [bind_apply, pop, MachineState.plain]
  cases hs : s.stack with
  | nil => exact mirrors_error id
  | cons v rest => exact h v rest hs

theorem mirrors_popInt {k : Int64 → Exec (Option RuntimeError)}
    {k' : Int64 → List Plain.Value → Plain.Effect}
    (h : ∀ n rest, s.stack = .int n :: rest → Mirrors (k n { s with stack := rest })
      (k' n (rest.map (Value.plain s.heap)))) :
    Mirrors ((popInt >>= k) s) (Plain.onInt s.plain.stack k') := by
  rw [bind_apply, popInt, bind_apply, pop, MachineState.plain]
  cases hs : s.stack with
  | nil => exact mirrors_error id
  | cons v rest =>
      cases v with
      | int n => exact h n rest hs
      | _ => exact mirrors_error id

theorem mirrors_popBool {k : Bool → Exec (Option RuntimeError)}
    {k' : Bool → List Plain.Value → Plain.Effect}
    (h : ∀ b rest, s.stack = .bool b :: rest → Mirrors (k b { s with stack := rest })
      (k' b (rest.map (Value.plain s.heap)))) :
    Mirrors ((popBool >>= k) s) (Plain.onBool s.plain.stack k') := by
  rw [bind_apply, popBool, bind_apply, pop, MachineState.plain]
  cases hs : s.stack with
  | nil => exact mirrors_error id
  | cons v rest =>
      cases v with
      | bool b => exact h b rest hs
      | _ => exact mirrors_error id

/-- Two integers are taken, and the rest of the stack is left. -/
theorem mirrors_popInts {k : Int64 → Int64 → Exec (Option RuntimeError)}
    {k' : Int64 → Int64 → List Plain.Value → Plain.Effect} (hc : s.Counted [])
    (h : ∀ a b rest, { s with stack := rest }.Counted [] →
      Mirrors (k a b { s with stack := rest }) (k' a b (rest.map (Value.plain s.heap)))) :
    Mirrors ((do let b ← popInt; let a ← popInt; k a b) s) (Plain.onInts s.plain.stack k') := by
  refine mirrors_popInt fun b rest hs => ?_
  refine mirrors_popInt (s := { s with stack := rest }) fun a rest' hs' => ?_
  refine h a b rest' (counted_stack hc fun id => ?_)
  have hs'' : rest = .int a :: rest' := hs'
  simp [hs, hs'']

/-- Two truth values are taken, and the rest of the stack is left. -/
theorem mirrors_popBools {k : Bool → Bool → Exec (Option RuntimeError)}
    {k' : Bool → Bool → List Plain.Value → Plain.Effect} (hc : s.Counted [])
    (h : ∀ a b rest, { s with stack := rest }.Counted [] →
      Mirrors (k a b { s with stack := rest }) (k' a b (rest.map (Value.plain s.heap)))) :
    Mirrors ((do let b ← popBool; let a ← popBool; k a b) s) (Plain.onBools s.plain.stack k') := by
  refine mirrors_popBool fun b rest hs => ?_
  refine mirrors_popBool (s := { s with stack := rest }) fun a rest' hs' => ?_
  refine h a b rest' (counted_stack hc fun id => ?_)
  have hs'' : rest = .bool a :: rest' := hs'
  simp [hs, hs'']

/-- A value that is no counted string is pushed. -/
theorem mirrors_push {v : Value} (hv : ∀ id, v ≠ .heap id) (hc : s.Counted []) :
    Mirrors ((do push v; return none : Exec (Option RuntimeError)) s)
      (Plain.nextWith s.plain (v.plain s.heap :: s.plain.stack)) := by
  refine mirrors_next (counted_stack hc fun id => ?_) rfl
  rw [List.count_cons_of_ne (hv id)]

/-- Two strings are taken and given up, and their contents go on. -/
theorem mirrors_popTexts {p : Program} {k : String × String → Exec (Option RuntimeError)}
    {k' : String → String → List Plain.Value → Plain.Effect} (hc : s.Counted [])
    (h : ∀ a b t, t.Counted [] → t.plain = s.plain.withStack t.plain.stack →
      Mirrors (k (a, b) t) (k' a b t.plain.stack)) :
    Mirrors ((popTexts p >>= k) s) (Plain.onTexts s.plain.stack p k') := by
  simp only [popTexts, bind_assoc]
  refine mirrors_pop fun b rest hs => ?_
  refine mirrors_pop (s := { s with stack := rest }) fun a rest' hs' => ?_
  have hb := counted_take hc hs
  have ha : { s with stack := rest' }.Counted [a, b] :=
    counted_take (s := { s with stack := rest }) hb hs'
  have hta := textOf_counted ha (v := a) (by simp [MachineState.roots]) p
  have htb := textOf_counted ha (v := b) (by simp [MachineState.roots]) p
  show Mirrors _ (do k' (← (a.plain s.heap).string? p) (← (b.plain s.heap).string? p) _)
  simp only at hta htb
  rw [bind_apply]
  cases hsa : (a.plain s.heap).string? p with
  | none =>
      rw [hsa] at hta
      obtain ⟨f, hf, hof⟩ := hta
      simp only [hf]
      exact mirrors_error hof
  | some left =>
      simp only [hsa] at hta
      simp only [hta, Option.bind_eq_bind, Option.bind_some]
      rw [bind_apply]
      cases hsb : (b.plain s.heap).string? p with
      | none =>
          rw [hsb] at htb
          obtain ⟨f, hf, hof⟩ := htb
          simp only [hf]
          exact mirrors_error hof
      | some right =>
          simp only [hsb] at htb
          obtain ⟨h₁, hrel₁, hc₁, hsame₁⟩ := release_counted ha
          obtain ⟨h₂, hrel₂, hc₂, hsame₂⟩ := release_counted hc₁
          simp only [htb, bind_apply, hrel₁ _ rfl, hrel₂ _ rfl, pure_apply, Option.bind_some]
          have hplain : { s with stack := rest', heap := h₂ }.plain =
              s.plain.withStack (rest'.map (Value.plain s.heap)) := by
            refine MachineState.plain_withHeap (s := { s with stack := rest' }) fun v hv => ?_
            rw [hsame₂ v (by simpa [MachineState.roots] using hv)]
            exact hsame₁ v (by simpa [MachineState.roots] using Or.inr hv)
          have hgo := h left right { s with stack := rest', heap := h₂ } hc₂ (by rw [hplain]; rfl)
          rwa [hplain] at hgo

end Continuations

theorem mirrors_arith (hc : s.Counted []) (f : Int64 → Int64 → Int64) :
    Mirrors ((do arith f; return none : Exec (Option RuntimeError)) s)
      (Plain.onInts s.plain.stack fun a b rest => Plain.nextWith s.plain (.int (f a b) :: rest)) := by
  simp only [arith, bind_assoc]
  exact mirrors_popInts hc fun a b rest hr => mirrors_push (fun _ => Value.noConfusion) hr

theorem mirrors_compare (hc : s.Counted []) (f : Int64 → Int64 → Bool) :
    Mirrors ((do compare f; return none : Exec (Option RuntimeError)) s)
      (Plain.onInts s.plain.stack fun a b rest => Plain.nextWith s.plain (.bool (f a b) :: rest)) := by
  simp only [compare, bind_assoc]
  exact mirrors_popInts hc fun a b rest hr => mirrors_push (fun _ => Value.noConfusion) hr

theorem mirrors_logic (hc : s.Counted []) (f : Bool → Bool → Bool) :
    Mirrors ((do logic f; return none : Exec (Option RuntimeError)) s)
      (Plain.onBools s.plain.stack fun a b rest =>
        Plain.nextWith s.plain (.bool (f a b) :: rest)) := by
  simp only [logic, bind_assoc]
  exact mirrors_popBools hc fun a b rest hr => mirrors_push (fun _ => Value.noConfusion) hr

theorem mirrors_divide (hc : s.Counted []) (f : Int64 → Int64 → Int64) (cause : RuntimeCause) :
    Mirrors (divide f cause s) (Plain.divide s.plain f cause) := by
  rw [divide, Plain.divide]
  refine mirrors_popInts hc fun a b rest hr => ?_
  split_ifs with hb
  · exact ⟨hr, rfl⟩
  · exact mirrors_push (fun _ => Value.noConfusion) hr

/-- Comparing agrees with the plain machine; values that can be compared are no counted strings, so none is lost.
-/
theorem mirrors_equality (hc : s.Counted []) (wanted : Bool) :
    Mirrors ((do equality wanted; return none : Exec (Option RuntimeError)) s)
      (Plain.onTwo s.plain.stack fun a b rest => do
        Plain.nextWith s.plain (.bool ((← a.equal? b) == wanted) :: rest)) := by
  simp only [equality, bind_assoc]
  refine mirrors_pop fun b rest hs => ?_
  refine mirrors_pop (s := { s with stack := rest }) fun a rest' hs' => ?_
  have hs'' : rest = a :: rest' := hs'
  simp only [Value.equal?_plain]
  cases hab : equal? a b with
  | none => exact mirrors_error id
  | some same =>
      have hr : { s with stack := rest' }.Counted [] := by
        refine counted_stack hc fun id => ?_
        cases a <;> cases b <;> simp_all [equal?]
      exact mirrors_push (fun _ => Value.noConfusion) hr

theorem mirrors_drop (hc : s.Counted []) :
    Mirrors ((do release (← pop); return none : Exec (Option RuntimeError)) s)
      (Plain.onTop s.plain.stack fun _ rest => Plain.nextWith s.plain rest) := by
  refine mirrors_pop fun v rest hs => ?_
  obtain ⟨h, hrel, hcounted, hsame⟩ := release_counted (counted_take hc hs)
  rw [bind_apply, hrel _ rfl]
  refine mirrors_next hcounted ?_
  exact MachineState.plain_withHeap (s := { s with stack := rest }) fun v hv => hsame v (by
    simpa [MachineState.roots] using hv)

/-- Writing agrees with the plain machine; the value that is written is released behind it. -/
theorem mirrors_write (hc : s.Counted []) (p : Program) (behind : String) :
    Mirrors ((do write p behind; return none : Exec (Option RuntimeError)) s)
      (Plain.write p s.plain behind) := by
  simp only [write, bind_assoc]
  refine mirrors_pop fun v rest hs => ?_
  have hv := counted_take hc hs
  have hshown := shown_counted hv (v := v) (by simp [MachineState.roots]) p
  simp only at hshown
  rw [bind_apply]
  cases hp : (v.plain s.heap).shown? p with
  | none =>
      rw [hp] at hshown
      obtain ⟨f, hf, hof⟩ := hshown
      simp only [hf]
      exact mirrors_error hof
  | some text =>
      simp only [hp] at hshown
      obtain ⟨h, hrel, hcounted, hsame⟩ := release_counted hv
      simp only [hshown, bind_apply, print]
      have hprinted : (modify fun s => { s with output := s.output ++ (text ++ behind) } : Exec Unit)
          { s with stack := rest } =
          .ok ((), { s with stack := rest, output := s.output ++ (text ++ behind) }) := rfl
      rw [hprinted]
      simp only [hrel { s with stack := rest, output := s.output ++ (text ++ behind) } rfl]
      refine mirrors_next ⟨hcounted.sound, hcounted.counts⟩ ?_
      exact MachineState.plain_withHeap
        (s := { s with stack := rest, output := s.output ++ (text ++ behind) }) fun v hv =>
          hsame v (by simpa [MachineState.roots] using hv)

theorem mirrors_pushNew (hc : s.Counted []) (text : String) :
    Mirrors ((do pushNew text; return none : Exec (Option RuntimeError)) s)
      (Plain.nextWith s.plain (.text text :: s.plain.stack)) := by
  obtain ⟨h, id, hpush, hcounted, hnew, hsame⟩ := pushNew_counted hc text
  rw [bind_apply, hpush]
  refine mirrors_next hcounted ?_
  have hold : { s with heap := h }.plain = s.plain :=
    MachineState.plain_withHeap fun v hv => hsame v (by simpa [MachineState.roots] using hv)
  show { s with heap := h }.plain.withStack ((Value.heap id).plain h ::
    { s with heap := h }.plain.stack) = _
  rw [hold, hnew]

/-- Making a string agrees with the plain machine; a new string is counted once. -/
theorem mirrors_stringify (hc : s.Counted []) :
    Mirrors ((do stringify; return none : Exec (Option RuntimeError)) s)
      (Plain.onTop s.plain.stack fun v rest =>
        Plain.nextWith s.plain (v.stringified :: rest)) := by
  simp only [stringify, bind_assoc]
  refine mirrors_pop fun v rest hs => ?_
  have hv := counted_take hc hs
  cases v with
  | const index | heap id =>
      exact mirrors_next (counted_push (s := { s with stack := rest }) hv) rfl
  | unit | int n | bool b =>
      refine mirrors_pushNew (s := { s with stack := rest }) (counted_stack hc fun id => ?_) _
      simp [hs]

theorem mirrors_append (hc : s.Counted []) (p : Program) :
    Mirrors ((do let (a, b) ← popTexts p; pushNew (a ++ b); return none :
        Exec (Option RuntimeError)) s)
      (Plain.onTexts s.plain.stack p fun a b rest =>
        Plain.nextWith s.plain (.text (a ++ b) :: rest)) := by
  refine mirrors_popTexts hc fun a b t ht hp => ?_
  have hgo := mirrors_pushNew ht (a ++ b)
  rw [Plain.nextWith, hp] at hgo
  exact hgo

theorem mirrors_textTest (hc : s.Counted []) (p : Program) (f : String → String → Bool) :
    Mirrors ((do let (a, b) ← popTexts p; push (.bool (f a b)); return none :
        Exec (Option RuntimeError)) s)
      (Plain.onTexts s.plain.stack p fun a b rest =>
        Plain.nextWith s.plain (.bool (f a b) :: rest)) := by
  refine mirrors_popTexts hc fun a b t ht hp => ?_
  have hgo := mirrors_push (v := .bool (f a b)) (fun _ => Value.noConfusion) ht
  rw [Plain.nextWith, hp] at hgo
  exact hgo

/-! Slots: the value that goes into a slot is in hand. -/

theorem getElem?_plain_slots (s : MachineState) (k : Nat) :
    s.plain.slots[k]? = (s.slots[k]?).map (Value.plain s.heap) := Array.getElem?_map

/-- Loading agrees with the plain machine; the value is counted once more, for the stack. -/
theorem mirrors_load (hc : s.Counted []) (arg : Int64) :
    Mirrors ((do let (_, v) ← slot arg; retain v; push v; return none :
        Exec (Option RuntimeError)) s)
      (do let v ← s.plain.slots[← Plain.index? arg]?
          Plain.nextWith s.plain (v :: s.plain.stack)) := by
  rw [bind_apply, slot_apply]
  cases Plain.index? arg with
  | none => exact mirrors_error id
  | some k =>
      simp only [Option.bind_eq_bind, Option.bind_some, getElem?_plain_slots]
      cases hk : s.slots[k]? with
      | none => exact mirrors_error id
      | some v =>
          have hv : v ∈ s.roots [] := by
            simpa [MachineState.roots] using Or.inr (Array.mem_of_getElem? hk)
          obtain ⟨h, hret, hcounted, hsame⟩ := retain_counted hc hv
          simp only [bind_apply, hret]
          refine mirrors_next (counted_push (s := { s with heap := h }) hcounted) ?_
          have hold : { s with heap := h }.plain = s.plain :=
            MachineState.plain_withHeap fun w _ => hsame w
          show { s with heap := h }.plain.withStack (v.plain h ::
            { s with heap := h }.plain.stack) = _
          rw [hold, hsame v]

/-- The value in hand goes into a slot. -/
theorem mirrors_store {v : Value} (hc : s.Counted [v]) (arg : Int64) :
    Mirrors ((do let (index, old) ← slot arg; release old; setSlot index v; return none :
        Exec (Option RuntimeError)) s)
      (Plain.store s.plain arg (v.plain s.heap) s.plain.stack) := by
  rw [bind_apply, slot_apply, Plain.store]
  cases Plain.index? arg with
  | none => exact mirrors_error id
  | some k =>
      simp only [Option.bind_eq_bind, Option.bind_some]
      cases hk : s.slots[k]? with
      | none =>
          have hlt : ¬k < s.plain.slots.size := by
            simpa [MachineState.plain, Array.getElem?_eq_none_iff] using hk
          rw [if_neg hlt]
          exact mirrors_error id
      | some old =>
          have hlt : k < s.plain.slots.size := by
            simpa [MachineState.plain] using (Array.getElem?_eq_some_iff.mp hk).1
          obtain ⟨h, hset, hcounted, hsame⟩ := setSlot_counted hc hk
          rw [if_pos hlt]
          simp only [← bind_assoc]
          rw [bind_apply, hset]
          refine mirrors_next hcounted ?_
          have hold : { s with heap := h, slots := s.slots.setIfInBounds k v }.plain =
              { s with slots := s.slots.setIfInBounds k v }.plain :=
            MachineState.plain_withHeap (s := { s with slots := s.slots.setIfInBounds k v })
              fun w hw => hsame w (by simpa [MachineState.roots] using hw)
          rw [hold]
          simp only [MachineState.plain, Array.map_setIfInBounds]

theorem mirrors_declare (hc : s.Counted []) (arg : Int64) :
    Mirrors ((do let v ← pop; let (index, old) ← slot arg; release old; setSlot index v; return none :
        Exec (Option RuntimeError)) s)
      (Plain.onTop s.plain.stack fun v rest => Plain.store s.plain arg v rest) := by
  refine mirrors_pop fun v rest hs => ?_
  exact mirrors_store (s := { s with stack := rest }) (counted_take hc hs) arg

/-- Assigning agrees with the plain machine. The new value is counted before the old one is released, so a value
that is assigned to its own variable stays. -/
theorem mirrors_assign (hc : s.Counted []) (arg : Int64) :
    Mirrors ((do let v ← top; retain v; let (index, old) ← slot arg; release old; setSlot index v
                 return none : Exec (Option RuntimeError)) s)
      (Plain.onTop s.plain.stack fun v _ => Plain.store s.plain arg v s.plain.stack) := by
  rw [bind_apply, top]
  cases hs : s.stack with
  | nil =>
      simp only [MachineState.plain, hs]
      exact mirrors_error id
  | cons v rest =>
      have hv : v ∈ s.roots [] := by simp [MachineState.roots, hs]
      obtain ⟨h, hret, hcounted, hsame⟩ := retain_counted hc hv
      have hold : { s with heap := h }.plain = s.plain :=
        MachineState.plain_withHeap fun w _ => hsame w
      have hstack : s.plain.stack = v.plain s.heap :: rest.map (Value.plain s.heap) := by
        simp [MachineState.plain, hs]
      have hgo := mirrors_store (s := { s with heap := h }) hcounted arg
      rw [hold, hsame v] at hgo
      simp only [bind_apply (retain v), hret]
      simpa only [hstack, Plain.onTop] using hgo

theorem mirrors_jump {m : Machine} (hc : s.Counted []) (label : Int64) :
    Mirrors ((do jump m label; return none : Exec (Option RuntimeError)) s)
      (Plain.jump m label s.plain) := by
  have hjump := jump_apply m label s
  rw [bind_apply, Plain.jump]
  cases ht : Plain.target? m label with
  | none =>
      rw [ht] at hjump
      obtain ⟨f, hf, hof⟩ := hjump
      simp only [hf]
      exact mirrors_error hof
  | some target =>
      simp only [ht] at hjump
      simp only [hjump]
      exact mirrors_next ⟨hc.sound, hc.counts⟩ rfl

/-- Every instruction, performed on a counted heap, does what the plain machine does. -/
theorem mirrors_instr {m : Machine} (hc : s.Counted []) (i : Instr) :
    Mirrors (instr m i s) (Plain.instr m i s.plain) := by
  rw [instr, Plain.instr]
  cases i.op? with
  | none => exact mirrors_error id
  | some op =>
      cases op with
      | pushInt | pushBool | pushUnit | pushString =>
          exact mirrors_push (fun _ => Value.noConfusion) hc
      | pop => exact mirrors_drop hc
      | load => exact mirrors_load hc i.arg
      | declare => exact mirrors_declare hc i.arg
      | assign => exact mirrors_assign hc i.arg
      | neg =>
          refine mirrors_popInt fun n rest hs => ?_
          refine mirrors_push (s := { s with stack := rest }) (fun _ => Value.noConfusion) ?_
          exact counted_stack hc fun id => by simp [hs]
      | not =>
          refine mirrors_popBool fun n rest hs => ?_
          refine mirrors_push (s := { s with stack := rest }) (fun _ => Value.noConfusion) ?_
          exact counted_stack hc fun id => by simp [hs]
      | stringify => exact mirrors_stringify hc
      | add | sub | mul => exact mirrors_arith hc _
      | div | rem => exact mirrors_divide hc _ _
      | and | or => exact mirrors_logic hc _
      | eq | ne => exact mirrors_equality hc _
      | lt | le | gt | ge => exact mirrors_compare hc _
      | strEq => exact mirrors_textTest hc m.program (· == ·)
      | strNe => exact mirrors_textTest hc m.program (· != ·)
      | append => exact mirrors_append hc m.program
      | write | writeln => exact mirrors_write hc m.program _
      | label => exact mirrors_next hc rfl
      | jump => exact mirrors_jump hc i.arg
      | jumpFalse =>
          refine mirrors_popBool fun b rest hs => ?_
          have hr : { s with stack := rest }.Counted [] :=
            counted_stack hc fun id => by simp [hs]
          cases b with
          | true => exact mirrors_next hr rfl
          | false => exact mirrors_jump hr i.arg

end Exec

end BlockLang

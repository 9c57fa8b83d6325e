import BlockLang.Proofs.Sequence
import BlockLang.Tree.Parse

/-! Readers of tokens. Two statements about a reader are composed from those about its pieces: that it
reads a given phrase, in front of given tokens, as a given result; and that whatever it reads in a
stream of tokens with an end marker is a phrase of some kind, which the end marker is no part of. -/

namespace BlockLang

/-- A stream that has some tokens in front and one behind it. -/
def Stream.facing (previous : Token) (tokens : List Token) : Stream :=
  { rest := tokens, current := tokens.headD {}, previous }

theorem Stream.facing_ofTokens (tokens : List Token) :
    Stream.ofTokens tokens = Stream.facing {} tokens := rfl

theorem Stream.current_facing {previous t : Token} {tokens : List Token} :
    (Stream.facing previous (t :: tokens)).current = t := rfl

theorem Stream.advance_facing {previous t : Token} {tokens : List Token} (h : tokens ≠ []) :
    (Stream.facing previous (t :: tokens)).advance = Stream.facing t tokens := by
  cases tokens with
  | nil => exact absurd rfl h
  | cons next more => rfl

theorem List.getLastD_append {α : Type} (u v : List α) (d : α) :
    (u ++ v).getLastD d = v.getLastD (u.getLastD d) := by
  induction u generalizing d with
  | nil => rfl
  | cons a u ih => rw [List.cons_append, List.getLastD_cons, List.getLastD_cons, ih]

namespace Parse

open Sequence

variable {α β : Type} {x : Parse α} {f : α → Parse β} {a : α} {b : β} {t : Token}
  {u v w rest : List Token}

/-- A reader that is run yields a tree, whatever it leaves. -/
theorem run'_eq_ok {s : Stream} : x.run' s = .ok a ↔ ∃ s', x s = .ok (a, s') := by
  have hrun : x.run' s = (x s).map Prod.fst := rfl
  rw [hrun]
  cases x s with
  | error e =>
      refine ⟨fun h => ?_, fun ⟨s', h⟩ => ?_⟩
      · cases h
      · cases h
  | ok r =>
      obtain ⟨b, s'⟩ := r
      refine ⟨fun h => ?_, fun ⟨s'', h⟩ => ?_⟩
      · cases h
        exact ⟨s', rfl⟩
      · cases h
        rfl

/-- A reader takes a phrase in front of other tokens for a result. -/
def Reads (x : Parse α) (w : List Token) (a : α) (rest : List Token) : Prop :=
  ∀ previous, x (.facing previous (w ++ rest)) = .ok (a, .facing (w.getLastD previous) rest)

namespace Reads

theorem pure : Reads (Pure.pure a) [] a rest := fun _ => rfl

theorem bind (hx : Reads x u a (v ++ rest)) (hf : Reads (f a) v b rest) :
    Reads (x >>= f) (u ++ v) b rest := by
  intro previous
  rw [List.append_assoc, List.getLastD_append]
  exact bind_ok.mpr ⟨a, _, hx previous, hf _⟩

theorem map {g : α → β} (hx : Reads x w a rest) :
    Reads (x >>= fun a => Pure.pure (g a)) w (g a) rest :=
  fun previous => bind_ok.mpr ⟨a, _, hx previous, rfl⟩

theorem current {f : Token → Parse β} (ht : w ++ rest = t :: u) (hf : Reads (f t) w b rest) :
    Reads (Parse.current >>= f) w b rest := by
  intro previous
  refine bind_ok.mpr ⟨t, _, ?_, hf previous⟩
  rw [ht]
  rfl

theorem advance {f : Unit → Parse β} (hrest : rest ≠ []) (hf : Reads (f ()) w b rest) :
    Reads (Parse.advance >>= f) (t :: w) b rest := by
  intro previous
  rw [List.getLastD_cons]
  refine bind_ok.mpr ⟨(), _, ?_, hf t⟩
  exact congrArg (fun s => Except.ok ((), s))
    (Stream.advance_facing (List.append_ne_nil_of_right_ne_nil w hrest))

theorem expect {kind : TokenKind} {what : Expected} {f : Token → Parse β} (ht : t.kind = kind)
    (hrest : rest ≠ []) (hf : Reads (f t) w b rest) :
    Reads (Parse.expect kind what >>= f) (t :: w) b rest := by
  intro previous
  rw [List.getLastD_cons]
  refine bind_ok.mpr ⟨t, _, ?_, hf t⟩
  rw [List.cons_append, Parse.expect, Stream.current_facing, if_pos ht,
    Stream.advance_facing (List.append_ne_nil_of_right_ne_nil w hrest)]

theorem accept {kind : TokenKind} {f : Bool → Parse β} (ht : t.kind = kind)
    (hrest : rest ≠ []) (hf : Reads (f true) w b rest) :
    Reads (Parse.accept kind >>= f) (t :: w) b rest := by
  intro previous
  rw [List.getLastD_cons]
  refine bind_ok.mpr ⟨true, _, ?_, hf t⟩
  rw [List.cons_append, Parse.accept, Stream.current_facing, if_pos ht,
    Stream.advance_facing (List.append_ne_nil_of_right_ne_nil w hrest)]

theorem refuse {kind : TokenKind} {f : Bool → Parse β} (ht : w ++ rest = t :: u)
    (hkind : t.kind ≠ kind) (hf : Reads (f false) w b rest) :
    Reads (Parse.accept kind >>= f) w b rest := by
  intro previous
  refine bind_ok.mpr ⟨false, _, ?_, hf previous⟩
  rw [ht]
  exact if_neg hkind

end Reads

/-- Tokens that end with the end marker, and among which every token is as it should be. -/
structure Delimited (good : Token → Prop) (tokens : List Token) : Prop where
  last : ∃ front last, tokens = front ++ [last] ∧ last.kind = .eof
  good : ∀ t ∈ tokens, good t

/-- A token in front of the end marker can be passed. -/
theorem Delimited.pass {good : Token → Prop} {more : List Token} (h : Delimited good (t :: more))
    (ht : t.kind ≠ .eof) (previous : Token) :
    ∃ next rest, more = next :: rest ∧ Delimited good (next :: rest) ∧
      (Stream.facing previous (t :: more)).advance = .facing t (next :: rest) := by
  obtain ⟨front, last, heq, hlast⟩ := h.last
  have hgood : ∀ t' ∈ more, good t' := fun t' ht' => h.good t' (List.mem_cons_of_mem _ ht')
  cases front with
  | nil =>
      cases heq
      exact absurd hlast ht
  | cons t' front =>
      obtain ⟨rfl, rfl⟩ : t = t' ∧ more = front ++ [last] := List.cons.inj heq
      obtain ⟨next, rest, hmore⟩ :=
        List.exists_cons_of_ne_nil (List.append_ne_nil_of_right_ne_nil front (List.cons_ne_nil last []))
      refine ⟨next, rest, hmore, hmore ▸ ⟨⟨front, last, rfl, hlast⟩, hgood⟩, ?_⟩
      rw [hmore]
      exact Stream.advance_facing (List.cons_ne_nil next rest)

/-- What a reader finds at a token of a sort, in tokens with an end marker: it reads a phrase, and the
token behind the phrase is of a sort that depends on the result. -/
structure Finds (good front : Token → Prop) (x : Parse α) (phrase : List Token → α → Prop)
    (behind : α → Token → Prop) : Prop where
  found : ∀ {previous first more a s}, Delimited good (first :: more) → front first →
    x (.facing previous (first :: more)) = .ok (a, s) →
    ∃ w next rest, first :: more = w ++ next :: rest ∧
      s = .facing (w.getLastD previous) (next :: rest) ∧ (∀ t ∈ w, t.kind ≠ .eof) ∧
      Delimited good (next :: rest) ∧ phrase w a ∧ behind a next

namespace Finds

variable {good front : Token → Prop} {phrase : List Token → α → Prop} {behind : α → Token → Prop}

theorem mono {front' : Token → Prop} {phrase' : List Token → α → Prop} {behind' : α → Token → Prop}
    (hx : Finds good front x phrase behind) (hfront : ∀ t, front' t → front t)
    (hphrase : ∀ w a, phrase w a → phrase' w a) (hbehind : ∀ a t, behind a t → behind' a t) :
    Finds good front' x phrase' behind' := by
  constructor
  intro previous first more a s hd hf h
  obtain ⟨w, next, rest, heq, hs, hw, hd', hp, hb⟩ := hx.found hd (hfront _ hf) h
  exact ⟨w, next, rest, heq, hs, hw, hd', hphrase w a hp, hbehind a next hb⟩

/-- What is found at any token is found at a token of a sort. -/
theorem at_front (hx : Finds good (fun _ => True) x phrase behind) :
    Finds good front x phrase behind :=
  hx.mono (fun _ _ => trivial) (fun _ _ => id) fun _ _ => id

theorem pure (hp : phrase [] a) (hb : ∀ t, front t → behind a t) :
    Finds good front (Pure.pure a) phrase behind := by
  constructor
  rintro previous first more _ _ hd hf ⟨⟩
  exact ⟨[], first, more, rfl, rfl, List.forall_mem_nil _, hd, hp, hb first hf⟩

theorem fail {cause : SyntaxCause} : Finds good front (Parse.fail cause t) phrase behind := by
  constructor
  rintro previous first more _ _ hd hf ⟨⟩

theorem bind {phrase' : List Token → β → Prop} {behind' : β → Token → Prop}
    (hx : Finds good front x phrase behind)
    (hf : ∀ u a, phrase u a → Finds good (behind a) (f a) (fun v b => phrase' (u ++ v) b) behind') :
    Finds good front (x >>= f) phrase' behind' := by
  constructor
  intro previous first more b s hd hfront h
  obtain ⟨a, s₁, hxs, h⟩ := bind_ok.mp h
  obtain ⟨u, next, rest, heq, rfl, hu, hd₁, hp, hb⟩ := hx.found hd hfront hxs
  obtain ⟨v, next', rest', heq', rfl, hv, hd₂, hp', hb'⟩ := (hf u a hp).found hd₁ hb h
  refine ⟨u ++ v, next', rest', ?_, ?_, ?_, hd₂, hp', hb'⟩
  · rw [heq, heq', List.append_assoc]
  · rw [List.getLastD_append]
  · intro t ht
    rcases List.mem_append.mp ht with ht | ht
    · exact hu t ht
    · exact hv t ht

theorem map {g : α → β} {phrase' : List Token → β → Prop} {behind' : β → Token → Prop}
    (hx : Finds good front x phrase behind) (hp : ∀ w a, phrase w a → phrase' w (g a))
    (hb : ∀ a t, behind a t → behind' (g a) t) :
    Finds good front (x >>= fun a => Pure.pure (g a)) phrase' behind' := by
  refine .bind hx fun u a hu => ?_
  have hphrase : phrase' (u ++ []) (g a) := by
    rw [List.append_nil]
    exact hp u a hu
  exact .pure hphrase (hb a)

/-- A phrase that is not empty begins with the token in front. -/
theorem first (hx : Finds good front x phrase behind) (hne : ∀ w a, phrase w a → w ≠ []) :
    Finds good front x (fun w a => phrase w a ∧ ∃ t u, w = t :: u ∧ front t) behind := by
  constructor
  intro previous first more a s hd hfront h
  obtain ⟨w, next, rest, heq, hs, hw, hd', hp, hb⟩ := hx.found hd hfront h
  obtain ⟨t, u, rfl⟩ := List.exists_cons_of_ne_nil (hne w a hp)
  obtain rfl : first = t := (List.cons.inj heq).1
  exact ⟨first :: u, next, rest, heq, hs, hw, hd', ⟨hp, first, u, rfl, hfront⟩, hb⟩

/-- The token in front decides what is read. -/
theorem current {f : Token → Parse β} {phrase : List Token → β → Prop} {behind : β → Token → Prop}
    (hf : ∀ t, front t → Finds good (· = t) (f t) phrase behind) :
    Finds good front (Parse.current >>= f) phrase behind := by
  constructor
  intro previous first more b s hd hfront h
  obtain ⟨_, _, hc, h⟩ := bind_ok.mp h
  cases hc
  exact (hf first hfront).found hd rfl h

/-- The token in front is passed and begins the phrase. -/
theorem advance {f : Unit → Parse β} {phrase : List Token → β → Prop} {behind : β → Token → Prop}
    (ht : t.kind ≠ .eof)
    (hf : good t → Finds good (fun _ => True) (f ()) (fun w b => phrase (t :: w) b) behind) :
    Finds good (· = t) (Parse.advance >>= f) phrase behind := by
  constructor
  rintro previous first more b s hd rfl h
  obtain ⟨next, rest, rfl, hd', hadvance⟩ := hd.pass ht previous
  rw [bind_of_ok (congrArg (fun s => Except.ok ((), s)) hadvance)] at h
  obtain ⟨w, next', rest', heq, rfl, hw, hd'', hp, hb⟩ :=
    (hf (hd.good first List.mem_cons_self)).found hd' trivial h
  refine ⟨first :: w, next', rest', ?_, ?_, List.forall_mem_cons.mpr ⟨ht, hw⟩, hd'', hp, hb⟩
  · rw [heq]
    rfl
  · rw [List.getLastD_cons]

theorem expect {kind : TokenKind} {what : Expected} (hkind : kind ≠ .eof) :
    Finds good front (Parse.expect kind what) (fun w t => w = [t] ∧ t.kind = kind)
      fun _ _ => True := by
  constructor
  intro previous first more t s hd hfront hx
  rw [Parse.expect, Stream.current_facing] at hx
  by_cases hk : first.kind = kind
  · have hne : first.kind ≠ .eof := hk ▸ hkind
    obtain ⟨next, rest, rfl, hd', hadvance⟩ := hd.pass hne previous
    rw [if_pos hk, hadvance] at hx
    cases hx
    exact ⟨[first], next, rest, rfl, rfl, List.forall_mem_singleton.mpr hne, hd', ⟨rfl, hk⟩, trivial⟩
  · rw [if_neg hk] at hx
    cases hx

theorem accept {kind : TokenKind} (hkind : kind ≠ .eof) :
    Finds good front (Parse.accept kind)
      (fun w found => if found then ∃ t, w = [t] ∧ t.kind = kind else w = [])
      fun found t => found = false → front t ∧ t.kind ≠ kind := by
  constructor
  intro previous first more found s hd hfront hx
  rw [Parse.accept, Stream.current_facing] at hx
  by_cases hk : first.kind = kind
  · have hne : first.kind ≠ .eof := hk ▸ hkind
    obtain ⟨next, rest, rfl, hd', hadvance⟩ := hd.pass hne previous
    rw [if_pos hk, hadvance] at hx
    cases hx
    exact ⟨[first], next, rest, rfl, rfl, List.forall_mem_singleton.mpr hne, hd', ⟨first, rfl, hk⟩,
      fun h => absurd h.symm Bool.false_ne_true⟩
  · rw [if_neg hk] at hx
    cases hx
    exact ⟨[], first, more, rfl, rfl, List.forall_mem_nil _, hd, rfl, fun _ => ⟨hfront, hk⟩⟩

end Finds

end Parse

end BlockLang

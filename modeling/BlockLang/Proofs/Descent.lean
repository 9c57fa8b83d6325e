import BlockLang.Proofs.Parsing

/-! The descent of the parser comes to an end. Between two tokens it goes down by less than sixteen
steps, and it never passes an end marker; so a bound on the depth that grows with the tokens in front
of the first end marker is never reached, and what stands behind that marker is never looked at. Both
are one statement about two runs: with enough depth each, at the same tokens in front of an end marker
and with anything behind it, they end alike. -/

namespace BlockLang.Parse

open Sequence Grammar

variable {α β : Type} {good front : Token → Prop} {size least : Nat} {x y : Parse α}
  {f g : α → Parse β} {a : α} {t marker previous : Token} {u v w rest rest' : List Token}

/-- Some tokens and the end marker behind them: they are as they should be, none of the tokens is an
end marker itself, and there are no more of them than a number says. -/
structure Ahead (good : Token → Prop) (size : Nat) (w : List Token) (marker : Token) : Prop where
  length_le : w.length ≤ size
  inner : ∀ t ∈ w, t.kind ≠ .eof
  last : marker.kind = .eof
  good : ∀ t ∈ w ++ [marker], good t

theorem Ahead.behind (h : Ahead good size (u ++ v) marker) (hu : least ≤ u.length) :
    Ahead good (size - least) v marker := by
  have hlength := h.length_le
  rw [List.length_append] at hlength
  refine ⟨by omega, fun t ht => h.inner t (List.mem_append_right u ht), h.last, fun t ht => ?_⟩
  apply h.good
  rw [List.append_assoc]
  exact List.mem_append_right u ht

/-- Ends of two runs at the same tokens, with different tokens behind the end marker: the same error,
found at a token that is as it should be and not for lack of depth; or the same result in front of
the same tokens, of which at least a given number have been passed. -/
inductive Alike (good : Token → Prop) (least : Nat) (previous : Token) (w : List Token)
    (marker : Token) (rest rest' : List Token) :
    Except SyntaxError (α × Stream) → Except SyntaxError (α × Stream) → Prop
  | error {e : SyntaxError} (hcause : e.cause ≠ .endless) (htoken : good e.token) :
    Alike good least previous w marker rest rest' (.error e) (.error e)
  | ok {a : α} {u v : List Token} (hw : w = u ++ v) (hu : least ≤ u.length) :
    Alike good least previous w marker rest rest'
      (.ok (a, .facing (u.getLastD previous) (v ++ marker :: rest)))
      (.ok (a, .facing (u.getLastD previous) (v ++ marker :: rest')))

namespace Alike

variable {least' : Nat} {r r' : Except SyntaxError (α × Stream)}

/-- What is passed in two parts is passed as a whole. -/
theorem append {total : Nat} (hu : least ≤ u.length) (htotal : total ≤ least + least')
    (h : Alike good least' (u.getLastD previous) v marker rest rest' r r') :
    Alike good total previous (u ++ v) marker rest rest' r r' := by
  cases h with
  | error hcause htoken => exact .error hcause htoken
  | @ok a u' v' hv hu' =>
      rw [← List.getLastD_append]
      refine .ok (by rw [hv, List.append_assoc]) ?_
      rw [List.length_append]
      omega

theorem bind {total : Nat} (htotal : total ≤ least)
    (h : Alike good least previous w marker rest rest' r r')
    (hf : ∀ a u v, w = u ++ v → least ≤ u.length →
      Alike good 0 (u.getLastD previous) v marker rest rest'
        (f a (.facing (u.getLastD previous) (v ++ marker :: rest)))
        (g a (.facing (u.getLastD previous) (v ++ marker :: rest')))) :
    Alike good total previous w marker rest rest' (r.bind fun p => f p.1 p.2)
      (r'.bind fun p => g p.1 p.2) := by
  cases h with
  | error hcause htoken => exact .error hcause htoken
  | @ok a u v hw hu =>
      subst hw
      exact .append hu htotal (hf a u v rfl hu)

end Alike

/-- Two readers end alike at any tokens of which the first is of a sort. -/
structure Settles (good front : Token → Prop) (size least : Nat) (x y : Parse α) : Prop where
  alike : ∀ {previous w marker} rest rest', Ahead good size w marker →
    front ((w ++ [marker]).headD {}) →
    Alike good least previous w marker rest rest' (x (.facing previous (w ++ marker :: rest)))
      (y (.facing previous (w ++ marker :: rest')))

theorem current_ahead (previous : Token) (w : List Token) (marker : Token) (rest : List Token) :
    (Stream.facing previous (w ++ marker :: rest)).current = (w ++ [marker]).headD {} := by
  cases w with
  | nil => rfl
  | cons t w => rfl

theorem advance_ahead (previous t : Token) (w : List Token) (marker : Token) (rest : List Token) :
    (Stream.facing previous (t :: w ++ marker :: rest)).advance =
      .facing t (w ++ marker :: rest) :=
  Stream.advance_facing (List.append_ne_nil_of_right_ne_nil w (List.cons_ne_nil marker rest))

/-- A token that is no end marker can be passed. -/
theorem Ahead.pass (h : Ahead good size w marker) (hhead : (w ++ [marker]).headD {} = t)
    (hne : t.kind ≠ .eof) : ∃ more, w = t :: more ∧ 0 < size ∧ Ahead good (size - 1) more marker := by
  cases w with
  | nil =>
      subst hhead
      exact absurd h.last hne
  | cons t' more =>
      obtain rfl : t' = t := hhead
      have hlength := h.length_le
      rw [List.length_cons] at hlength
      exact ⟨more, rfl, by omega, h.behind (u := [t']) (Nat.le_refl 1)⟩

theorem Ahead.good_head (h : Ahead good size w marker) : good ((w ++ [marker]).headD {}) := by
  apply h.good
  cases w with
  | nil => exact List.mem_cons_self
  | cons t w => exact List.mem_cons_self

namespace Settles

/-- What ends alike at any token ends alike at a token of a sort. -/
theorem at_front (hx : Settles good (fun _ => True) size least x y) :
    Settles good front size least x y :=
  ⟨fun rest rest' hw _ => hx.alike rest rest' hw trivial⟩

theorem pure : Settles good front size 0 (Pure.pure a) (Pure.pure a) :=
  ⟨fun _ _ _ _ => Alike.ok (u := []) rfl (Nat.zero_le _)⟩

theorem fail {cause : SyntaxCause} (hcause : cause ≠ .endless) (htoken : good t) :
    Settles good front size least (Parse.fail (α := α) cause t) (Parse.fail cause t) :=
  ⟨fun _ _ _ _ => .error hcause htoken⟩

/-- The token in front is a good place for an error. -/
theorem fail_current {cause : SyntaxCause} (hcause : cause ≠ .endless) :
    Settles good (· = t) size least (Parse.fail (α := α) cause t) (Parse.fail cause t) := by
  constructor
  intro previous w marker rest rest' hw hhead
  exact .error hcause (hhead ▸ hw.good_head)

theorem bind {total : Nat} (hx : Settles good front size least x y) (htotal : total ≤ least)
    (hf : least ≤ size → ∀ a, Settles good (fun _ => True) (size - least) 0 (f a) (g a)) :
    Settles good front size total (x >>= f) (y >>= g) := by
  constructor
  intro previous w marker rest rest' hw hfront
  refine Alike.bind htotal (hx.alike rest rest' hw hfront) fun a u v heq hu => ?_
  subst heq
  have hlength := hw.length_le
  rw [List.length_append] at hlength
  exact (hf (by omega) a).alike rest rest' (hw.behind hu) trivial

theorem current {f g : Token → Parse β}
    (hf : ∀ t, front t → Settles good (· = t) size least (f t) (g t)) :
    Settles good front size least (Parse.current >>= f) (Parse.current >>= g) := by
  constructor
  intro previous w marker rest rest' hw hfront
  rw [bind_of_ok (x := Parse.current) rfl, bind_of_ok (x := Parse.current) rfl, current_ahead,
    current_ahead]
  exact (hf _ hfront).alike rest rest' hw rfl

theorem advance {f g : Unit → Parse β} (ht : t.kind ≠ .eof)
    (hf : 0 < size → good t → Settles good (fun _ => True) (size - 1) (least - 1) (f ()) (g ())) :
    Settles good (· = t) size least (Parse.advance >>= f) (Parse.advance >>= g) := by
  constructor
  intro previous w marker rest rest' hw hhead
  have hgood : good t := hhead ▸ hw.good_head
  obtain ⟨more, rfl, hpos, hmore⟩ := hw.pass hhead ht
  rw [bind_of_ok (x := Parse.advance) rfl, bind_of_ok (x := Parse.advance) rfl, advance_ahead,
    advance_ahead]
  exact .append (u := [t]) (Nat.le_refl 1) (by omega) ((hf hpos hgood).alike rest rest' hmore trivial)

theorem accept {kind : TokenKind} {f g : Bool → Parse β} (hkind : kind ≠ .eof)
    (htrue : 0 < size → Settles good (fun _ => True) (size - 1) (least - 1) (f true) (g true))
    (hfalse : Settles good (fun _ => True) size least (f false) (g false)) :
    Settles good front size least (Parse.accept kind >>= f) (Parse.accept kind >>= g) := by
  constructor
  intro previous w marker rest rest' hw _
  by_cases hk : ((w ++ [marker]).headD {}).kind = kind
  · obtain ⟨more, heq, hpos, hmore⟩ := hw.pass rfl (hk ▸ hkind)
    generalize (w ++ [marker]).headD {} = t at hk heq
    subst heq
    have haccept : ∀ behind, Parse.accept kind (.facing previous (t :: more ++ marker :: behind)) =
        .ok (true, .facing t (more ++ marker :: behind)) := by
      intro behind
      rw [← advance_ahead previous t]
      exact if_pos hk
    rw [bind_of_ok (haccept rest), bind_of_ok (haccept rest')]
    exact .append (u := [t]) (Nat.le_refl 1) (by omega) ((htrue hpos).alike rest rest' hmore trivial)
  · have haccept : ∀ behind, Parse.accept kind (.facing previous (w ++ marker :: behind)) =
        .ok (false, .facing previous (w ++ marker :: behind)) := by
      intro behind
      rw [Parse.accept, current_ahead, if_neg hk]
    rw [bind_of_ok (haccept rest), bind_of_ok (haccept rest')]
    exact hfalse.alike rest rest' hw trivial

theorem expect {kind : TokenKind} {what : Expected} (hkind : kind ≠ .eof) :
    Settles good front size 1 (Parse.expect kind what) (Parse.expect kind what) := by
  constructor
  intro previous w marker rest rest' hw _
  simp only [Parse.expect, current_ahead]
  by_cases hk : ((w ++ [marker]).headD {}).kind = kind
  · obtain ⟨more, heq, -, -⟩ := hw.pass rfl (hk ▸ hkind)
    rw [if_pos hk, if_pos hk]
    generalize (w ++ [marker]).headD {} = t at heq
    subst heq
    rw [advance_ahead, advance_ahead]
    exact Alike.ok (u := [t]) rfl (Nat.le_refl 1)
  · rw [if_neg hk, if_neg hk]
    exact .error SyntaxCause.noConfusion hw.good_head

/-- Readers that look at the token in front and at the one before it. -/
theorem get {f g : Stream → Parse β}
    (hf : ∀ s s' : Stream, s'.current = s.current → s'.previous = s.previous →
      Settles good (· = s.current) size least (f s) (g s')) :
    Settles good front size least (MonadState.get >>= f) (MonadState.get >>= g) := by
  constructor
  intro previous w marker rest rest' hw _
  rw [bind_of_ok (x := MonadState.get) rfl, bind_of_ok (x := MonadState.get) rfl]
  have hcurrent : (Stream.facing previous (w ++ marker :: rest')).current =
      (Stream.facing previous (w ++ marker :: rest)).current := by
    rw [current_ahead, current_ahead]
  exact (hf _ _ hcurrent rfl).alike rest rest' hw (current_ahead previous w marker rest).symm

end Settles

/-! ### The readers -/

/-- The readers of two depths end alike if both depths suffice for the number of tokens. -/
structure Settled (good : Token → Prop) (depth depth' : Nat) : Prop where
  expr : ∀ {size}, 16 * size + 10 ≤ min depth depth' →
    Settles good (fun _ => True) size 1 (expr depth) (expr depth')
  binary : ∀ {size level}, 16 * size + 4 + (5 - level) ≤ min depth depth' →
    Settles good (fun _ => True) size 1 (binary depth level) (binary depth' level)
  operators : ∀ {size level left}, 16 * size + 1 ≤ min depth depth' →
    Settles good (fun _ => True) size 0 (operators depth level left) (operators depth' level left)
  unary : ∀ {size}, 16 * size + 3 ≤ min depth depth' →
    Settles good (fun _ => True) size 1 (unary depth) (unary depth')
  primary : ∀ {size}, 16 * size + 2 ≤ min depth depth' →
    Settles good (fun _ => True) size 1 (primary depth) (primary depth')
  branches : ∀ {size}, 16 * size + 1 ≤ min depth depth' →
    Settles good (fun _ => True) size 0 (branches depth) (branches depth')
  block : ∀ {size}, 16 * size + 1 ≤ min depth depth' →
    Settles good (fun _ => True) size 1 (block depth) (block depth')
  stmts : ∀ {size stop}, 16 * size + 12 ≤ min depth depth' →
    Settles good (fun _ => True) size 0 (stmts depth stop) (stmts depth' stop)
  stmt : ∀ {size}, 16 * size + 11 ≤ min depth depth' →
    Settles good (fun _ => True) size 1 (stmt depth) (stmt depth')

namespace Settled

variable {depth depth' : Nat}

/-- No depth at all suffices for nothing. -/
theorem of_zero (h : min depth depth' = 0) : Settled good depth depth' := by
  constructor <;> (intros; omega)

/-- An expression is read alike at both depths if there is depth enough for its tokens. -/
theorem expr_succ (h : Settled good depth depth')
    (hdepth : 16 * size + 10 ≤ min (depth + 1) (depth' + 1)) :
    Settles good (fun _ => True) size 1 (Parse.expr (depth + 1)) (Parse.expr (depth' + 1)) := by
  constructor
  intro previous w marker rest rest' hw _
  rw [Parse.expr, Parse.expr, bind_of_ok (x := MonadState.get) rfl,
    bind_of_ok (x := MonadState.get) rfl]
  by_cases hassign : ∃ name sign more, w = name :: sign :: more ∧ name.kind = .ident ∧ sign.kind = .eq
  · obtain ⟨name, sign, more, rfl, hname, hsign⟩ := hassign
    have hmore : Ahead good (size - 2) more marker := hw.behind (u := [name, sign]) (Nat.le_refl 2)
    have hlength := hw.length_le
    rw [List.length_cons] at hlength
    have hexpr : Settles good (fun _ => True) (size - 2) 1 (Parse.expr depth) (Parse.expr depth') :=
      h.expr (by omega)
    rw [if_pos ⟨hname, hsign⟩, if_pos ⟨hname, hsign⟩]
    simp only [bind_of_ok (x := Parse.advance) rfl, advance_ahead]
    have hvalue := Settles.bind hexpr (Nat.le_refl 1) fun _ value =>
      .pure (a := Expr.assign name.text value ())
    exact .append (u := [name, sign]) (Nat.le_refl 2) (by omega)
      (hvalue.alike rest rest' hmore trivial)
  · have hplain : ∀ behind, ¬((Stream.facing previous (w ++ marker :: behind)).current.kind = .ident ∧
        (Stream.facing previous (w ++ marker :: behind)).peek.kind = .eq) := by
      rintro behind ⟨hname, hsign⟩
      have hlast := hw.last
      match w with
      | [] => simp_all [Stream.facing]
      | [t] => simp_all [Stream.facing, Stream.peek]
      | name :: sign :: more => exact hassign ⟨name, sign, more, rfl, hname, hsign⟩
    rw [if_neg (hplain rest), if_neg (hplain rest')]
    exact (h.binary (by omega)).alike rest rest' hw trivial

theorem binary_succ (h : Settled good depth depth') {level : Nat}
    (hdepth : 16 * size + 4 + (5 - level) ≤ min (depth + 1) (depth' + 1)) :
    Settles good (fun _ => True) size 1 (Parse.binary (depth + 1) level)
      (Parse.binary (depth' + 1) level) := by
  rw [Parse.binary, Parse.binary]
  have htightest : BinaryOp.tightest = 4 := rfl
  by_cases hlevel : BinaryOp.tightest < level
  · rw [if_pos hlevel, if_pos hlevel]
    exact h.unary (by omega)
  · rw [if_neg hlevel, if_neg hlevel]
    exact .bind (h.binary (by omega)) (Nat.le_refl 1) fun _ _ => h.operators (by omega)

/-- Each operator takes at least one token, which pays for the depth of what follows it. -/
theorem operators_succ (h : Settled good depth depth') {level : Nat} {left : Expr .parsed}
    (hdepth : 16 * size + 1 ≤ min (depth + 1) (depth' + 1)) :
    Settles good (fun _ => True) size 0 (Parse.operators (depth + 1) level left)
      (Parse.operators (depth' + 1) level left) := by
  rw [Parse.operators, Parse.operators]
  refine .current fun t _ => ?_
  cases hop : binaryOp? t.kind with
  | none => exact .pure
  | some op =>
      by_cases hlevel : op.level = level
      · have ht : t.kind ≠ .eof := by
          intro heof
          rw [heof] at hop
          cases hop
        simp only [if_pos hlevel]
        refine .advance ht fun hpos _ => ?_
        refine .bind (h.binary (by omega)) (Nat.zero_le _) fun _ _ => h.operators (by omega)
      · simp only [if_neg hlevel]
        exact .pure

/-- What stands behind a sign is shorter than the whole, so the depth suffices. -/
theorem unary_succ (h : Settled good depth depth')
    (hdepth : 16 * size + 3 ≤ min (depth + 1) (depth' + 1)) :
    Settles good (fun _ => True) size 1 (Parse.unary (depth + 1)) (Parse.unary (depth' + 1)) := by
  rw [Parse.unary, Parse.unary]
  refine .current fun t _ => ?_
  cases hop : unaryOp? t.kind with
  | none => exact (h.primary (by omega)).at_front
  | some op =>
      have ht : t.kind ≠ .eof := by
        intro heof
        rw [heof] at hop
        cases hop
      refine .advance ht fun hpos _ => .current fun next _ => ?_
      by_cases hleast : op = .negate ∧ next.kind = .number ∧ next.text = minIntMagnitude
      · simp only [if_pos hleast]
        have hnext : next.kind ≠ .eof := by
          rw [hleast.2.1]
          exact TokenKind.noConfusion
        exact .advance hnext fun _ _ => .pure
      · simp only [if_neg hleast]
        have hunary : Settles good (fun _ => True) (size - 1) 1 (Parse.unary depth)
            (Parse.unary depth') := h.unary (by omega)
        exact .bind hunary.at_front (Nat.zero_le 1) fun _ _ => .pure

theorem branches_succ (h : Settled good depth depth')
    (hdepth : 16 * size + 1 ≤ min (depth + 1) (depth' + 1)) :
    Settles good (fun _ => True) size 0 (Parse.branches (depth + 1))
      (Parse.branches (depth' + 1)) := by
  rw [Parse.branches, Parse.branches]
  refine .accept TokenKind.noConfusion (fun hpos => ?_)
    (.accept TokenKind.noConfusion (fun hpos => ?_) .pure)
  · refine .bind (h.expr (by omega)) (Nat.zero_le _) fun _ _ => ?_
    refine .bind (h.block (by omega)) (Nat.zero_le _) fun _ _ => ?_
    exact .bind (h.branches (by omega)) (Nat.zero_le _) fun _ _ => .pure
  · exact .bind (h.block (by omega)) (Nat.zero_le _) fun _ _ => .pure

theorem block_succ (h : Settled good depth depth')
    (hdepth : 16 * size + 1 ≤ min (depth + 1) (depth' + 1)) :
    Settles good (fun _ => True) size 1 (Parse.block (depth + 1)) (Parse.block (depth' + 1)) := by
  rw [Parse.block, Parse.block]
  refine .bind (.expect TokenKind.noConfusion) (Nat.le_refl 1) fun hpos _ => ?_
  refine .bind (h.stmts (by omega)) (Nat.zero_le _) fun _ _ => ?_
  exact .bind (.expect TokenKind.noConfusion) (Nat.zero_le _) fun _ _ => .pure

theorem numberValue_settles (htoken : good t) :
    Settles good front size 0 (numberValue t) (numberValue t) := by
  rw [numberValue]
  cases Text.readSigned t.text.toList with
  | ok value => exact .pure
  | error _ => exact .fail SyntaxCause.noConfusion htoken

/-- What stands in parentheses or braces is shorter than the whole, so the depth suffices. -/
theorem primary_succ (h : Settled good depth depth')
    (hdepth : 16 * size + 2 ≤ min (depth + 1) (depth' + 1)) :
    Settles good (fun _ => True) size 1 (Parse.primary (depth + 1))
      (Parse.primary (depth' + 1)) := by
  rw [Parse.primary, Parse.primary]
  refine .current fun t _ => ?_
  split
  case h_1 hkind =>
    refine .advance (ne_of_eq_of_ne hkind TokenKind.noConfusion) fun _ hgood => ?_
    exact .bind (numberValue_settles hgood) (Nat.le_refl 0) fun _ _ => .pure
  case h_2 hkind | h_3 hkind | h_4 hkind | h_5 hkind =>
    exact .advance (ne_of_eq_of_ne hkind TokenKind.noConfusion) fun _ _ => .pure
  case h_6 hkind =>
    refine .advance (ne_of_eq_of_ne hkind TokenKind.noConfusion) fun _ _ => ?_
    refine .accept TokenKind.noConfusion (fun _ => .pure) ?_
    refine .bind (h.expr (by omega)) (Nat.zero_le 1) fun _ _ => ?_
    exact .bind (.expect TokenKind.noConfusion) (Nat.zero_le 1) fun _ _ => .pure
  case h_7 hkind =>
    exact .bind (h.block (by omega)).at_front (Nat.le_refl 1) fun _ _ => .pure
  case h_8 hkind =>
    refine .advance (ne_of_eq_of_ne hkind TokenKind.noConfusion) fun _ _ => ?_
    refine .bind (h.expr (by omega)) (Nat.zero_le 1) fun _ _ => ?_
    refine .bind (h.block (by omega)) (Nat.zero_le 1) fun _ _ => ?_
    exact .bind (h.branches (by omega)) (Nat.le_refl 0) fun _ _ => .pure
  case h_9 hkind =>
    refine .advance (ne_of_eq_of_ne hkind TokenKind.noConfusion) fun _ _ => ?_
    refine .bind (h.expr (by omega)) (Nat.zero_le 1) fun _ _ => ?_
    exact .bind (h.block (by omega)) (Nat.zero_le 1) fun _ _ => .pure
  case h_10 => exact .fail_current SyntaxCause.noConfusion

/-- Statements are settled one level deeper. What comes next depends only on the tokens around the end of a
statement. -/
theorem stmts_succ (h : Settled good depth depth') {stop : TokenKind}
    (hdepth : 16 * size + 12 ≤ min (depth + 1) (depth' + 1)) :
    Settles good (fun _ => True) size 0 (Parse.stmts (depth + 1) stop)
      (Parse.stmts (depth' + 1) stop) := by
  rw [Parse.stmts, Parse.stmts]
  refine .current fun t _ => ?_
  by_cases hstop : t.kind = stop ∨ t.kind = .eof
  · rw [if_pos hstop, if_pos hstop]
    exact .pure
  rw [if_neg hstop, if_neg hstop]
  refine .bind (h.stmt (by omega)).at_front (Nat.zero_le 1) fun hpos s => ?_
  have hmore : ∀ (size' : Nat) (divided : Bool), size' ≤ size - 1 →
      Settles good (fun _ => True) size' 0
        (do
          let behind ← MonadState.get
          if divided ∨ behind.current.kind = stop ∨ behind.current.kind = .eof
              ∨ behind.previous.kind = .rbrace then
            let rest ← Parse.stmts depth stop
            Pure.pure (s :: rest)
          else Parse.fail (.missing .separator) behind.current)
        (do
          let behind ← MonadState.get
          if divided ∨ behind.current.kind = stop ∨ behind.current.kind = .eof
              ∨ behind.previous.kind = .rbrace then
            let rest ← Parse.stmts depth' stop
            Pure.pure (s :: rest)
          else Parse.fail (.missing .separator) behind.current) := by
    intro size' divided hsize
    refine .get fun behind behind' hcurrent hprevious => ?_
    rw [hcurrent, hprevious]
    split
    · exact .bind (h.stmts (by omega)).at_front (Nat.le_refl 0) fun _ _ => .pure
    · exact .fail_current SyntaxCause.noConfusion
  exact .accept TokenKind.noConfusion (fun _ => hmore _ true (by omega)) (hmore _ false (Nat.le_refl _))

/-- Every kind of statement is read alike at both depths. -/
theorem stmt_succ (h : Settled good depth depth')
    (hdepth : 16 * size + 11 ≤ min (depth + 1) (depth' + 1)) :
    Settles good (fun _ => True) size 1 (Parse.stmt (depth + 1)) (Parse.stmt (depth' + 1)) := by
  rw [Parse.stmt, Parse.stmt]
  refine .current fun t _ => ?_
  cases htype : declaredType? t.kind with
  | some type =>
      have ht : t.kind ≠ .eof := by
        intro heof
        rw [heof] at htype
        cases htype
      refine .advance ht fun hpos _ => ?_
      refine .bind (.expect TokenKind.noConfusion) (Nat.zero_le 1) fun _ _ => ?_
      refine .bind (.expect TokenKind.noConfusion) (Nat.zero_le 1) fun _ _ => ?_
      exact .bind (h.expr (by omega)) (Nat.zero_le 1) fun _ _ => .pure
  | none =>
      dsimp only
      split
      case h_1 hkind | h_2 hkind =>
        refine .advance (ne_of_eq_of_ne hkind TokenKind.noConfusion) fun hpos _ => ?_
        exact .bind (h.expr (by omega)) (Nat.zero_le 1) fun _ _ => .pure
      case h_3 hkind | h_4 hkind =>
        exact .advance (ne_of_eq_of_ne hkind TokenKind.noConfusion) fun _ _ => .pure
      case h_5 => exact .bind (h.expr (by omega)).at_front (Nat.le_refl 1) fun _ _ => .pure

end Settled

/-- All readers are settled at all depths, by induction on the depth of the one and of the other. -/
theorem settled (good : Token → Prop) (depth depth' : Nat) : Settled good depth depth' := by
  induction depth generalizing depth' with
  | zero => exact .of_zero (Nat.zero_min depth')
  | succ depth ih =>
      cases depth' with
      | zero => exact .of_zero (Nat.min_zero _)
      | succ depth' =>
          have h := ih depth'
          exact
            { expr := h.expr_succ
              binary := h.binary_succ
              operators := h.operators_succ
              unary := h.unary_succ
              primary := h.primary_succ
              branches := h.branches_succ
              block := h.block_succ
              stmts := h.stmts_succ
              stmt := h.stmt_succ }

/-! ### Whole programs -/

/-- A program is read up to the end marker, or an error is found at a token in front of it. -/
theorem program_alike {depth depth' : Nat} (hw : Ahead good w.length w marker)
    (hdepth : 16 * w.length + 12 ≤ min depth depth') (rest rest' : List Token) :
    (∃ e, program depth (.ofTokens (w ++ marker :: rest)) = .error e ∧
      program depth' (.ofTokens (w ++ marker :: rest')) = .error e ∧
      e.cause ≠ .endless ∧ good e.token) ∨
    ∃ body last,
      program depth (.ofTokens (w ++ marker :: rest)) =
        .ok (body, (Stream.facing last (marker :: rest)).advance) ∧
      program depth' (.ofTokens (w ++ marker :: rest')) =
        .ok (body, (Stream.facing last (marker :: rest')).advance) := by
  have hstmts : Alike good 0 {} w marker rest rest'
      (stmts depth .eof (.facing {} (w ++ marker :: rest)))
      (stmts depth' .eof (.facing {} (w ++ marker :: rest'))) :=
    ((settled good depth depth').stmts hdepth).alike rest rest' hw trivial
  have hprogram : ∀ (depth : Nat) (s : Stream), program depth s = (stmts depth .eof s).bind fun p =>
      (expect .eof .endOfFile >>= fun _ => (pure p.1 : Parse (Body .parsed))) p.2 := fun _ _ => rfl
  rw [hprogram, hprogram, Stream.facing_ofTokens, Stream.facing_ofTokens]
  generalize stmts depth .eof (.facing {} (w ++ marker :: rest)) = r at hstmts
  generalize stmts depth' .eof (.facing {} (w ++ marker :: rest')) = r' at hstmts
  cases hstmts with
  | @error e hcause htoken => exact .inl ⟨e, rfl, rfl, hcause, htoken⟩
  | @ok body u v heq _ =>
      subst heq
      cases v with
      | nil =>
          refine .inr ⟨body, u.getLastD {}, ?_, ?_⟩
          · exact bind_of_ok (if_pos hw.last)
          · exact bind_of_ok (if_pos hw.last)
      | cons t v =>
          have ht : t.kind ≠ .eof := hw.inner t (List.mem_append_right u List.mem_cons_self)
          have hgood : good t :=
            hw.good t (List.mem_append_left _ (List.mem_append_right u List.mem_cons_self))
          have hexpect : ∀ behind,
              (expect .eof .endOfFile >>= fun _ => (pure body : Parse (Body .parsed)))
                (.facing (u.getLastD {}) (t :: v ++ marker :: behind)) =
              .error ⟨.missing .endOfFile, t⟩ := by
            intro behind
            show Except.bind (if t.kind = .eof then _ else _) _ = _
            rw [if_neg ht]
            rfl
          exact .inl ⟨_, hexpect rest, hexpect rest', SyntaxCause.noConfusion, hgood⟩

theorem run'_of_error {s : Stream} {e : SyntaxError} (h : x s = .error e) : x.run' s = .error e := by
  show (x s).map Prod.fst = _
  rw [h]
  rfl

theorem run'_of_ok {s s' : Stream} (h : x s = .ok (a, s')) : x.run' s = .ok a :=
  run'_eq_ok.mpr ⟨s', h⟩

/-- Neither the depth nor what stands behind the end marker decides how a program is read. -/
theorem run'_program_eq {depth depth' : Nat} (hw : Ahead good w.length w marker)
    (hdepth : 16 * w.length + 12 ≤ min depth depth') (rest rest' : List Token) :
    (program depth).run' (.ofTokens (w ++ marker :: rest)) =
      (program depth').run' (.ofTokens (w ++ marker :: rest')) := by
  obtain ⟨e, herror, herror', -, -⟩ | ⟨body, last, hok, hok'⟩ := program_alike hw hdepth rest rest'
  · rw [run'_of_error herror, run'_of_error herror']
  · rw [run'_of_ok hok, run'_of_ok hok']

/-- Tokens with an end marker, seen from the first one. -/
theorem exists_ahead {tokens : List Token}
    (hend : ∃ last, tokens.getLast? = some last ∧ last.kind = .eof) :
    ∃ marker behind, tokens = Grammar.front tokens ++ marker :: behind ∧
      Ahead (· ∈ Grammar.front tokens ++ [marker]) (Grammar.front tokens).length
        (Grammar.front tokens) marker ∧
      16 * (Grammar.front tokens).length + 12 ≤ depthBound tokens := by
  obtain ⟨last, hgetLast, hlast⟩ := hend
  obtain ⟨marker, behind, heq, hmarker⟩ :=
    exists_eq_front_append ⟨last, List.mem_of_getLast? hgetLast, hlast⟩
  refine ⟨marker, behind, heq, ⟨Nat.le_refl _, fun _ => ne_of_mem_front, hmarker, fun _ => id⟩, ?_⟩
  have hlength := congrArg List.length heq
  rw [List.length_append, List.length_cons] at hlength
  rw [depthBound]
  omega

/-- How the parser ends: behind the first end marker, or with an error at a token up to it. -/
theorem program_cases {tokens behind : List Token}
    (heq : tokens = Grammar.front tokens ++ marker :: behind)
    (hahead : Ahead good (Grammar.front tokens).length (Grammar.front tokens) marker)
    (hbound : 16 * (Grammar.front tokens).length + 12 ≤ depthBound tokens) :
    (∃ body s, program (depthBound tokens) (.ofTokens tokens) = .ok (body, s) ∧
      s.rest = behind ∧ s.previous = marker) ∨
    ∃ e, program (depthBound tokens) (.ofTokens tokens) = .error e ∧ e.cause ≠ .endless ∧
      good e.token := by
  obtain ⟨e, herror, -, hcause, htoken⟩ | ⟨body, last, hok, -⟩ :=
    program_alike hahead (Nat.le_min.mpr ⟨hbound, hbound⟩) behind behind
  · rw [← heq] at herror
    exact .inr ⟨e, herror, hcause, htoken⟩
  · rw [← heq] at hok
    refine .inl ⟨body, _, hok, ?_, ?_⟩
    · cases behind <;> rfl
    · cases behind <;> rfl

/-- The token of a syntax error is one of the tokens. -/
theorem token_mem_of_parse {tokens : List Token}
    (hend : ∃ last, tokens.getLast? = some last ∧ last.kind = .eof) {e : SyntaxError}
    (h : parse tokens = .error e) : e.token ∈ tokens := by
  obtain ⟨marker, behind, heq, hahead, hbound⟩ := exists_ahead hend
  obtain ⟨body, s, hok, -, -⟩ | ⟨e', herror, -, htoken⟩ := program_cases heq hahead hbound
  · rw [parse, run'_of_ok hok] at h
    cases h
  · rw [parse, run'_of_error herror] at h
    cases h
    rw [heq, ← List.singleton_append, ← List.append_assoc]
    exact List.mem_append_left behind htoken

/-- The program of some tokens is the phrase in front of their first end marker. -/
theorem parse_iff_front {tokens : List Token}
    (hend : ∃ last, tokens.getLast? = some last ∧ last.kind = .eof) (hproper : ∀ t ∈ tokens, t.Proper)
    {body : Body .parsed} :
    parse tokens = .ok body ↔ Derives .body (Grammar.front tokens) body := by
  obtain ⟨marker, behind, heq, hahead, -⟩ := exists_ahead hend
  obtain ⟨last, hgetLast, hlast⟩ := hend
  obtain ⟨init, htokens⟩ := List.getLast?_eq_some_iff.mp hgetLast
  have hd : Delimited Token.Proper tokens := ⟨⟨init, last, htokens, hlast⟩, hproper⟩
  rw [heq] at hd
  constructor
  · intro h
    rw [heq] at h
    exact derives_of_parse hahead.inner hahead.last hd h
  · intro h
    rw [heq]
    exact parse_of_derives hahead.last h

/-- On tokens with an end marker the parser comes to an end by itself. It ends in the same way with
any greater bound on its depth and with any tokens behind the first end marker, so it is never stopped
by the bound and never looks behind that marker. Either there is a program and every token up to and
including the first end marker has been passed, or there is an error at one of these tokens. -/
theorem parse_comes_to_end {tokens : List Token}
    (hend : ∃ last, tokens.getLast? = some last ∧ last.kind = .eof) :
    ∃ marker behind, tokens = Grammar.front tokens ++ marker :: behind ∧ marker.kind = .eof ∧
      (∀ depth other, depthBound tokens ≤ depth →
        (program depth).run' (.ofTokens (Grammar.front tokens ++ marker :: other)) = parse tokens) ∧
      ((∃ body s, parse tokens = .ok body ∧
          program (depthBound tokens) (.ofTokens tokens) = .ok (body, s) ∧
          s.rest = behind ∧ s.previous = marker) ∨
        ∃ e, parse tokens = .error e ∧ e.cause ≠ .endless ∧
          e.token ∈ Grammar.front tokens ++ [marker]) := by
  obtain ⟨marker, behind, heq, hahead, hbound⟩ := exists_ahead hend
  refine ⟨marker, behind, heq, hahead.last, fun depth other hdepth => ?_, ?_⟩
  · have hdeep : 16 * (Grammar.front tokens).length + 12 ≤ min depth (depthBound tokens) := by omega
    rw [run'_program_eq hahead hdeep other behind, ← heq, parse]
  · obtain ⟨body, s, hok, hrest, hprevious⟩ | ⟨e, herror, hcause, htoken⟩ :=
      program_cases heq hahead hbound
    · exact .inl ⟨body, s, run'_of_ok hok, hok, hrest, hprevious⟩
    · exact .inr ⟨e, run'_of_error herror, hcause, htoken⟩

theorem parse_comes_to_end_inner_marker :
    ∃ name sign numeral marker paren : Token,
      [name, sign, numeral, marker, paren, marker].map (·.kind) =
        [.ident, .minus, .number, .eof, .lparen, .eof] ∧ numeral.text = "seven" ∧
      (∃ last, [name, sign, numeral, marker, paren, marker].getLast? = some last ∧ last.kind = .eof) ∧
      parse [name, sign, numeral, marker, paren, marker] = .error ⟨.numberOutOfRange, numeral⟩ ∧
      ∀ depth other, 128 ≤ depth →
        (program depth).run' (.ofTokens ([name, sign, numeral] ++ marker :: other)) =
          .error ⟨.numberOutOfRange, numeral⟩ := by
  refine ⟨⟨.ident, "x", 0, 1, 1, 1⟩, ⟨.minus, "", 0, 1, 3, 1⟩, ⟨.number, "seven", 0, 1, 5, 5⟩,
    ⟨.eof, "", 0, 1, 10, 0⟩, ⟨.lparen, "", 0, 1, 10, 1⟩, rfl, rfl, ⟨_, rfl, rfl⟩, rfl,
    fun depth other hdepth => ?_⟩
  obtain ⟨marker, behind, heq, -, hsame, -⟩ := @parse_comes_to_end
    [⟨.ident, "x", 0, 1, 1, 1⟩, ⟨.minus, "", 0, 1, 3, 1⟩, ⟨.number, "seven", 0, 1, 5, 5⟩,
      ⟨.eof, "", 0, 1, 10, 0⟩, ⟨.lparen, "", 0, 1, 10, 1⟩, ⟨.eof, "", 0, 1, 10, 0⟩] ⟨_, rfl, rfl⟩
  cases heq
  exact hsame depth other hdepth

end BlockLang.Parse

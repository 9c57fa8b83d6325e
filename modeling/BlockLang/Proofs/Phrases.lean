import BlockLang.Proofs.Grammar
import BlockLang.Proofs.Numerals
import BlockLang.Proofs.Reading

/-! Phrases are read. The parser takes every phrase of the grammar for the tree that it stands for, in
front of any token that cannot go on with it, one lemma for each production. What a phrase begins with
decides which of the readers meets it. -/

namespace BlockLang.Grammar

open Parse Sequence

theorem joins_iff {level : Nat} {sign : TokenKind} {op : BinaryOp} :
    Joins level sign op ↔ binaryOp? sign = some op ∧ op.level = level := by
  have htable : ∀ level < levels.length, ∀ row ∈ levels[level]?, ∀ p ∈ row,
      binaryOp? p.1 = some p.2 ∧ p.2.level = level := by decide
  constructor
  · rintro ⟨row, hrow, hmem⟩
    exact htable level (List.getElem?_eq_some_iff.mp hrow).1 row hrow _ hmem
  · rintro ⟨hop, rfl⟩
    cases sign <;> cases hop <;> exact ⟨_, rfl, by decide⟩

theorem mem_leading {sign : TokenKind} {op : UnaryOp} :
    (sign, op) ∈ leading ↔ unaryOp? sign = some op := by
  have htable : ∀ p ∈ leading, unaryOp? p.1 = some p.2 := by decide
  refine ⟨htable (sign, op), fun h => ?_⟩
  cases sign <;> cases h <;> decide

theorem mem_typeWords {word : TokenKind} {type : Ty} :
    (word, type) ∈ typeWords ↔ declaredType? word = some type := by
  have htable : ∀ p ∈ typeWords, declaredType? p.1 = some p.2 := by decide
  refine ⟨htable (word, type), fun h => ?_⟩
  cases word <;> cases h <;> decide

def opensExpression : TokenKind → Bool
  | .ident | .number | .string | .kwTrue | .kwFalse | .kwNot | .kwIf | .kwWhile | .minus | .dollar
  | .lbrace | .lparen => true
  | _ => false

def opensStatement : TokenKind → Bool
  | .kwInt | .kwString | .kwBool | .kwUnit | .kwWrite | .kwWriteln | .kwBreak | .kwContinue => true
  | k => opensExpression k

theorem opensStatement_of_opensExpression {k : TokenKind} (h : opensExpression k = true) :
    opensStatement k = true := by
  cases k <;> first | rfl | cases h

/-- The kinds of tokens with which a phrase of a category can begin, if it cannot be empty. -/
def Category.opens : Category → TokenKind → Bool
  | .branches | .body => fun _ => false
  | .statement => opensStatement
  | _ => opensExpression

/-- A token with which a phrase of a category can begin; a number is one that needs no sign. -/
structure Category.Begins (c : Category) (t : Token) : Prop where
  opens : c.opens t.kind = true
  small : t.kind = .number → ∃ n < magnitude, t.text = toString n

theorem Category.Begins.of_kind {c : Category} {t : Token} (h : c.opens t.kind = true)
    (ht : t.kind ≠ .number) : c.Begins t := ⟨h, fun h' => absurd h' ht⟩

theorem Category.Begins.ne {c : Category} {t : Token} {k : TokenKind} (h : c.Begins t)
    (hk : c.opens k = false) : t.kind ≠ k := by
  rintro rfl
  rw [h.opens] at hk
  cases hk

/-- The categories whose phrases are never empty. -/
def Category.Filled : Category → Prop
  | .branches | .body => False
  | _ => True

/-- A phrase of a category that is not empty begins with a token of it. -/
theorem Derives.first {c : Category} {w : List Token} {tree : c.Tree} (h : Derives c w tree)
    (hc : c.Filled) : ∃ t u, w = t :: u ∧ c.Begins t := by
  have htruth : ∀ p ∈ truthWords, opensExpression p.1 = true ∧ p.1 ≠ .number := by decide
  have hleading : ∀ p ∈ leading, opensExpression p.1 = true ∧ p.1 ≠ .number := by decide
  have hwrite : ∀ p ∈ writeWords, opensStatement p.1 = true ∧ p.1 ≠ .number := by decide
  have htype : ∀ p ∈ typeWords, opensStatement p.1 = true ∧ p.1 ≠ .number := by decide
  induction h with
  | operation _ ih | tighter _ _ ih | operand _ ih | primary _ ih | braced _ ih =>
      obtain ⟨t, u, rfl, ht⟩ := ih trivial
      exact ⟨t, u, rfl, ht.opens, ht.small⟩
  | binary _ _ _ ih _ =>
      obtain ⟨t, u, rfl, ht⟩ := ih trivial
      exact ⟨t, _, rfl, ht⟩
  | expr _ ih =>
      obtain ⟨t, u, hw, ht⟩ := ih trivial
      exact ⟨t, u, hw, opensStatement_of_opensExpression ht.opens, ht.small⟩
  | unary hsign _ => exact ⟨_, _, rfl, .of_kind (hleading _ hsign).1 (hleading _ hsign).2⟩
  | truth ht => exact ⟨_, _, rfl, .of_kind (htruth _ ht).1 (htruth _ ht).2⟩
  | declare hword _ _ _ => exact ⟨_, _, rfl, .of_kind (htype _ hword).1 (htype _ hword).2⟩
  | write hword _ => exact ⟨_, _, rfl, .of_kind (hwrite _ hword).1 (hwrite _ hword).2⟩
  | number ht htext hn => exact ⟨_, _, rfl, by rw [ht]; rfl, fun _ => ⟨_, hn, htext⟩⟩
  | assign h _ _ | least h _ _ | string h | var h | unit h _ | paren h _ _ | choice h _ _ _
  | loop h _ _ | block h _ _ | leave h | again h =>
      exact ⟨_, _, rfl, .of_kind (by rw [h]; rfl) (by rw [h]; decide)⟩
  | done | otherwise | orIf | empty | last | divided | undivided => exact hc.elim

theorem Derives.ne_nil {c : Category} {w : List Token} {tree : c.Tree} (h : Derives c w tree)
    (hc : c.Filled) : w ≠ [] := by
  obtain ⟨t, u, rfl, -⟩ := h.first hc
  exact List.cons_ne_nil t u

/-- A body that is not empty begins as a statement does. -/
theorem Derives.body_first {t : Token} {u : List Token} {body : Body .parsed}
    (h : Derives .body (t :: u) body) : Category.Begins .statement t := by
  generalize hw : t :: u = w at h
  cases h with
  | empty => cases hw
  | last h =>
      obtain ⟨first, more, rfl, hfirst⟩ := h.first trivial
      cases hw
      exact hfirst
  | divided h _ _ =>
      obtain ⟨first, more, rfl, hfirst⟩ := h.first trivial
      cases hw
      exact hfirst
  | @undivided brace next w rest s body h _ _ _ =>
      obtain ⟨first, more, heq, hfirst⟩ := h.first trivial
      cases w with
      | nil =>
          cases heq
          cases hw
          exact hfirst
      | cons first' w =>
          cases heq
          cases hw
          exact hfirst

theorem Derives.block_first {w : List Token} {body : Body .parsed} (h : Derives .block w body) :
    ∃ t u, w = t :: u ∧ t.kind = .lbrace := by
  cases h with
  | block h _ _ => exact ⟨_, _, rfl, h⟩

theorem Derives.primary_first {w : List Token} {e : Expr .parsed} (h : Derives .primary w e) :
    ∃ t u, w = t :: u ∧ unaryOp? t.kind = none := by
  have htruth : ∀ p ∈ truthWords, unaryOp? p.1 = none := by decide
  cases h with
  | truth h => exact ⟨_, _, rfl, htruth _ h⟩
  | braced h =>
      obtain ⟨t, u, rfl, ht⟩ := h.block_first
      exact ⟨t, u, rfl, by rw [ht]; rfl⟩
  | number h _ _ | string h | var h | unit h _ | paren h _ _ | choice h _ _ _ | loop h _ _ =>
      exact ⟨_, _, rfl, by rw [h]; rfl⟩

/-- The categories of operands and of operations on them. -/
def Category.Operational : Category → Prop
  | .operation _ | .operand | .primary => True
  | _ => False

/-- Behind a variable at the beginning of an operation comes the sign of an operator. -/
theorem Derives.second {c : Category} {w u : List Token} {t t' : Token} {tree : c.Tree}
    (h : Derives c w tree) (hc : c.Operational) (hw : w = t :: t' :: u) (ht : t.kind = .ident) :
    ∃ level op, Joins level t'.kind op := by
  have hleading : ∀ p ∈ leading, p.1 ≠ .ident := by decide
  induction h generalizing u with
  | tighter _ _ ih | operand _ ih | primary _ ih => exact ih trivial hw
  | @binary level sign op left right a b hsign hleft hright ih _ =>
      obtain ⟨first, more, rfl, -⟩ := hleft.first trivial
      cases more with
      | nil =>
          cases hw
          exact ⟨level, op, hsign⟩
      | cons second more =>
          cases hw
          exact ih trivial rfl
  | unary hsign _ =>
      cases hw
      exact absurd ht (hleading _ hsign)
  | least h _ _ | unit h _ | paren h _ _ | choice h _ _ _ | loop h _ _ =>
      rw [(List.cons.inj hw).1, ht] at h
      cases h
  | braced h =>
      obtain ⟨opening, more, rfl, hopen⟩ := h.block_first
      rw [(List.cons.inj hw).1, ht] at hopen
      cases hopen
  | number | string | truth | var => cases hw
  | _ => exact hc.elim

/-! ### Phrases are read -/

/-- A token that does not go on with a choice. -/
def Closes (t : Token) : Prop := t.kind ≠ .kwElif ∧ t.kind ≠ .kwElse

/-- A token that does not go on with an expression. -/
def Ends (t : Token) : Prop := binaryOp? t.kind = none ∧ t.kind ≠ .eq ∧ Closes t

theorem ends_of_kind {t : Token} {k : TokenKind} (h : t.kind = k)
    (hk : k = .semi ∨ k = .lbrace ∨ k = .rbrace ∨ k = .rparen ∨ k = .eof) : Ends t := by
  rcases hk with rfl | rfl | rfl | rfl | rfl <;>
    exact ⟨by rw [h]; rfl, by rw [h]; decide, by rw [h]; decide, by rw [h]; decide⟩

/-- The token at which a statement begins ends the one before it, unless it is the sign of an
operator. -/
theorem ends_of_begins {t : Token} (h : Category.Begins .statement t)
    (hsign : ∀ level op, ¬Joins level t.kind op) : Ends t := by
  refine ⟨?_, h.ne rfl, h.ne rfl, h.ne rfl⟩
  cases hop : binaryOp? t.kind with
  | none => rfl
  | some op => exact absurd (joins_iff.mpr ⟨hop, rfl⟩) (hsign op.level op)

/-- A phrase of a category is read as its tree, given a depth that grows with its length. Operators
of the level that is being read may follow an operation; the parser goes on with them. -/
def Category.IsRead : (c : Category) → List Token → c.Tree → Prop
  | .expression, w, e => ∀ {depth next rest}, 16 * w.length + 9 ≤ depth → Ends next →
      Reads (Parse.expr depth) w e (next :: rest)
  | .operation level, w, e => ∀ {depth} next rest, 16 * w.length + (8 - level) ≤ depth →
      (∀ op, binaryOp? next.kind = some op → op.level ≤ level) → Closes next →
      ∃ depth', depth ≤ depth' + w.length ∧ ∀ previous,
        Parse.binary depth level (.facing previous (w ++ next :: rest)) =
          Parse.operators depth' level e (.facing (w.getLastD previous) (next :: rest))
  | .operand, w, e => ∀ {depth next rest}, 16 * w.length + 2 ≤ depth → Closes next →
      Reads (Parse.unary depth) w e (next :: rest)
  | .primary, w, e => ∀ {depth next rest}, 16 * w.length + 1 ≤ depth → Closes next →
      Reads (Parse.primary depth) w e (next :: rest)
  | .branches, w, b => ∀ {depth next rest}, 16 * w.length + 1 ≤ depth → Closes next →
      Reads (Parse.branches depth) w b (next :: rest)
  | .block, w, b => ∀ {depth rest}, 16 * w.length ≤ depth → rest ≠ [] →
      Reads (Parse.block depth) w b rest
  | .body, w, b => ∀ {depth stop next rest}, 16 * w.length + 11 ≤ depth →
      stop = .rbrace ∨ stop = .eof → next.kind = stop → Reads (Parse.stmts depth stop) w b (next :: rest)
  | .statement, w, s => ∀ {depth next rest}, 16 * w.length + 10 ≤ depth → Ends next →
      Reads (Parse.stmt depth) w s (next :: rest)

-- The equations of the readers are made here, once, for all the lemmas below that rewrite with them.
attribute [local simp] Parse.expr Parse.binary Parse.operators Parse.unary Parse.primary
  Parse.branches Parse.block Parse.stmts Parse.stmt

section Operators

variable {depth level : Nat} {a b : Expr .parsed} {op : BinaryOp} {previous next sign : Token}
  {v w rest : List Token}

theorem operators_stop (hdepth : 1 ≤ depth)
    (hnext : ∀ op, binaryOp? next.kind = some op → op.level ≠ level) :
    Parse.operators depth level a (.facing previous (next :: rest)) =
      .ok (a, .facing previous (next :: rest)) := by
  obtain ⟨depth, rfl⟩ : ∃ d, depth = d + 1 := ⟨depth - 1, by omega⟩
  rw [Parse.operators]
  refine bind_ok.mpr ⟨next, _, rfl, ?_⟩
  cases hop : binaryOp? next.kind with
  | none => rfl
  | some op => simp only [hnext op hop, if_false]; rfl

theorem operators_step (hsign : Joins level sign.kind op)
    (hb : Reads (Parse.binary depth (level + 1)) v b rest) (hrest : rest ≠ []) :
    Parse.operators (depth + 1) level a (.facing previous (sign :: (v ++ rest))) =
      Parse.operators depth level (.binary op a b ()) (.facing (v.getLastD sign) rest) := by
  obtain ⟨hop, hlevel⟩ := joins_iff.mp hsign
  have hadvance : Parse.advance (.facing previous (sign :: (v ++ rest))) =
      .ok ((), .facing sign (v ++ rest)) := by
    rw [Parse.advance, Stream.advance_facing (List.append_ne_nil_of_right_ne_nil v hrest)]
  rw [Parse.operators, bind_of_ok (a := sign) rfl]
  simp only [hop, if_pos hlevel]
  rw [bind_of_ok hadvance, bind_of_ok (hb sign)]

theorem binary_step (hlevel : level < levels.length)
    (hw : Reads (Parse.binary depth (level + 1)) w a rest) :
    Parse.binary (depth + 1) level (.facing previous (w ++ rest)) =
      Parse.operators depth level a (.facing (w.getLastD previous) rest) := by
  have hloose : ¬BinaryOp.tightest < level := Nat.not_lt.mpr (Nat.le_of_lt_succ hlevel)
  rw [Parse.binary, if_neg hloose, bind_of_ok (hw previous)]

/-- An operation is read to its end if no operator of its level follows. -/
theorem Category.IsRead.reads (h : Category.IsRead (.operation level) w a)
    (hdepth : 16 * w.length + (8 - level) ≤ depth) (hw : w ≠ [])
    (hnext : ∀ op, binaryOp? next.kind = some op → op.level < level) (hclose : Closes next) :
    Reads (Parse.binary depth level) w a (next :: rest) := by
  have hlength := List.length_pos_iff.mpr hw
  obtain ⟨depth', hle, hread⟩ := h next rest hdepth
    (fun op hop => Nat.le_of_lt (hnext op hop)) hclose
  intro previous
  rw [hread previous]
  exact operators_stop (by omega) fun op hop => Nat.ne_of_lt (hnext op hop)

end Operators

section Statements

variable {depth : Nat} {stop : TokenKind} {s : Stmt .parsed} {b : Body .parsed}
  {first semi next : Token} {u v w rest more : List Token}

theorem stmts_stop (hdepth : 1 ≤ depth) (hnext : next.kind = stop) :
    Reads (Parse.stmts depth stop) [] [] (next :: rest) := by
  obtain ⟨depth, rfl⟩ : ∃ d, depth = d + 1 := ⟨depth - 1, by omega⟩
  rw [Parse.stmts]
  refine .current rfl ?_
  rw [if_pos (.inl hnext)]
  exact .pure

theorem stmts_divided (hs : Reads (Parse.stmt depth) (first :: w) s (semi :: (v ++ rest)))
    (hfirst : first.kind ≠ stop ∧ first.kind ≠ .eof) (hsemi : semi.kind = .semi)
    (hb : Reads (Parse.stmts depth stop) v b rest) (hrest : rest ≠ []) :
    Reads (Parse.stmts (depth + 1) stop) (first :: w ++ semi :: v) (s :: b) rest := by
  rw [Parse.stmts]
  refine .current rfl ?_
  rw [if_neg (not_or.mpr hfirst)]
  refine .bind (v := semi :: v) hs (.accept hsemi hrest fun previous => ?_)
  rw [bind_of_ok (a := Stream.facing previous (v ++ rest)) rfl, if_pos (.inl rfl)]
  exact hb.map previous

/-- Behind a statement that ends with a brace no semicolon is needed. -/
theorem stmts_undivided (hs : Reads (Parse.stmt depth) (first :: w) s (v ++ rest))
    (hfirst : first.kind ≠ stop ∧ first.kind ≠ .eof) (hnext : v ++ rest = next :: more)
    (hsemi : next.kind ≠ .semi)
    (hgo : next.kind = stop ∨ (w.getLastD first).kind = .rbrace)
    (hb : Reads (Parse.stmts depth stop) v b rest) :
    Reads (Parse.stmts (depth + 1) stop) (first :: w ++ v) (s :: b) rest := by
  rw [Parse.stmts]
  refine .current rfl ?_
  rw [if_neg (not_or.mpr hfirst)]
  intro previous
  have haccept : ∀ previous, Parse.accept .semi (.facing previous (v ++ rest)) =
      .ok (false, .facing previous (v ++ rest)) := by
    intro previous
    rw [hnext]
    exact if_neg hsemi
  have hgo' : (Stream.facing (w.getLastD first) (v ++ rest)).current.kind = stop ∨
      (Stream.facing (w.getLastD first) (v ++ rest)).current.kind = .eof ∨
      (Stream.facing (w.getLastD first) (v ++ rest)).previous.kind = .rbrace := by
    rw [hnext]
    exact hgo.imp_right .inr
  rw [List.append_assoc, List.getLastD_append, bind_of_ok (hs previous), List.getLastD_cons,
    bind_of_ok (haccept _), bind_of_ok (a := Stream.facing (w.getLastD first) (v ++ rest)) rfl,
    if_pos (.inr hgo')]
  exact hb.map _

end Statements

theorem numberValue_toString {t : Token} {n : Nat} (htext : t.text = toString n)
    (hn : n < magnitude) : numberValue t = pure (Int64.ofNat n) := by
  have hbound : n ≤ Text.maxUnsigned64 := Nat.le_trans (Nat.le_of_lt hn) (by decide)
  have hsmall : ¬Nat.pow 2 63 ≤ n := Nat.not_le.mpr hn
  rw [numberValue, htext, Text.readSigned_toString hbound, if_neg hsmall]
  show pure (Int64.ofInt n) = pure (Int64.ofNat n)
  rw [Int64.ofInt_eq_ofNat]

theorem toString_magnitude : toString magnitude = minIntMagnitude := by decide +kernel

/-- The numeral of a number that needs no sign is another one than that of 2^63. -/
theorem ne_minIntMagnitude {n : Nat} (hn : n < magnitude) : toString n ≠ minIntMagnitude := by
  intro h
  have hread := Text.readSigned_toString (n := n) (Nat.le_trans (Nat.le_of_lt hn) (by decide))
  have hleast := Text.readSigned_toString (n := magnitude) (by decide)
  have hsmall : ¬Nat.pow 2 63 ≤ n := Nat.not_le.mpr hn
  have hlarge : Nat.pow 2 63 ≤ magnitude := Nat.le_refl _
  rw [h, ← toString_magnitude, hleast, if_pos hlarge, if_neg hsmall] at hread
  cases hread

section Productions

variable {word opening closing name sign t : Token} {u v w : List Token} {a b e cond : Expr .parsed}
  {body : Body .parsed} {others : Branches .parsed} {level : Nat}

theorem isRead_assign (hname : name.kind = .ident) (hsign : sign.kind = .eq)
    (h : Category.IsRead .expression w e) :
    Category.IsRead .expression (name :: sign :: w) (.assign name.text e ()) := by
  intro depth next rest hdepth hnext previous
  rw [List.length_cons, List.length_cons] at hdepth
  obtain ⟨depth, rfl⟩ : ∃ d, depth = d + 1 := ⟨depth - 1, by omega⟩
  rw [Parse.expr, bind_of_ok (a := Stream.facing previous (name :: sign :: w ++ next :: rest)) rfl,
    if_pos ⟨hname, hsign⟩]
  have hvalue : Reads (Parse.expr depth) w e (next :: rest) := h (by omega) hnext
  exact (Reads.advance (List.cons_ne_nil next rest)
    (.advance (List.cons_ne_nil next rest) hvalue.map)) previous

/-- An expression that is no assignment is read as an operation. A variable in front of `=` would be an assignment,
but behind a variable stands a sign or the end. -/
theorem isRead_expression (hw : Derives (.operation 0) w e)
    (h : Category.IsRead (.operation 0) w e) : Category.IsRead .expression w e := by
  intro depth next rest hdepth hnext previous
  obtain ⟨depth, rfl⟩ : ∃ d, depth = d + 1 := ⟨depth - 1, by omega⟩
  obtain ⟨t, u, rfl, -⟩ := hw.first trivial
  have hother : ¬((Stream.facing previous (t :: u ++ next :: rest)).current.kind = .ident ∧
      (Stream.facing previous (t :: u ++ next :: rest)).peek.kind = .eq) := by
    rintro ⟨ht, heq⟩
    cases u with
    | nil => exact hnext.2.1 heq
    | cons t' u =>
        obtain ⟨level, op, hjoin⟩ := hw.second trivial rfl ht
        have ht' : t'.kind = .eq := heq
        rw [ht', joins_iff] at hjoin
        cases hjoin.1
  rw [Parse.expr, bind_of_ok (a := Stream.facing previous (t :: u ++ next :: rest)) rfl,
    if_neg hother]
  refine h.reads (by omega) (List.cons_ne_nil t u) (fun op hop => ?_) hnext.2.2 previous
  rw [hnext.1] at hop
  cases hop

/-- An operation is read from its operands. The right one is of the next level, so it ends in front of a sign of
this level. -/
theorem isRead_binary {op : BinaryOp} (hsign : Joins level sign.kind op) (hv : v ≠ [])
    (ha : Category.IsRead (.operation level) u a)
    (hb : Category.IsRead (.operation (level + 1)) v b) :
    Category.IsRead (.operation level) (u ++ sign :: v) (.binary op a b ()) := by
  intro depth next rest hdepth hnext hclose
  obtain ⟨hop, hsame⟩ := joins_iff.mp hsign
  have hlevel : level < levels.length := by
    obtain ⟨row, hrow, -⟩ := hsign
    exact (List.getElem?_eq_some_iff.mp hrow).1
  rw [List.length_append, List.length_cons] at hdepth
  have hcloses : Closes sign := by
    refine ⟨fun h => ?_, fun h => ?_⟩ <;> rw [h] at hop <;> cases hop
  have hfive : levels.length = 5 := rfl
  have hdepthLeft : 16 * u.length + (8 - level) ≤ depth := by omega
  obtain ⟨depth', hle, hleft⟩ := ha sign (v ++ next :: rest) hdepthLeft
    (fun op' hop' => by rw [hop] at hop'; cases hop'; exact Nat.le_of_eq hsame) hcloses
  obtain ⟨depth', rfl⟩ : ∃ d, depth' = d + 1 := ⟨depth' - 1, by omega⟩
  have hright : Reads (Parse.binary depth' (level + 1)) v b (next :: rest) :=
    hb.reads (by omega) hv (fun op' hop' => Nat.lt_succ_of_le (hnext op' hop')) hclose
  refine ⟨depth', ?_, fun previous => ?_⟩
  · rw [List.length_append, List.length_cons]
    omega
  · rw [List.append_assoc, List.cons_append, hleft previous,
      operators_step hsign hright (List.cons_ne_nil next rest), List.getLastD_append,
      List.getLastD_cons]

theorem isRead_tighter (hlevel : level < levels.length) (hw : w ≠ [])
    (h : Category.IsRead (.operation (level + 1)) w e) :
    Category.IsRead (.operation level) w e := by
  intro depth next rest hdepth hnext hclose
  have hfive : levels.length = 5 := rfl
  have hlength := List.length_pos_iff.mpr hw
  obtain ⟨depth, rfl⟩ : ∃ d, depth = d + 1 := ⟨depth - 1, by omega⟩
  have hread : Reads (Parse.binary depth (level + 1)) w e (next :: rest) :=
    h.reads (by omega) hw (fun op hop => Nat.lt_succ_of_le (hnext op hop)) hclose
  exact ⟨depth, by omega, fun previous => binary_step hlevel hread⟩

theorem isRead_operand (h : Category.IsRead .operand w e) :
    Category.IsRead (.operation levels.length) w e := by
  intro depth next rest hdepth hnext hclose
  have hfive : levels.length = 5 := rfl
  rw [hfive] at hdepth
  obtain ⟨depth, rfl⟩ : ∃ d, depth = d + 1 := ⟨depth - 1, by omega⟩
  refine ⟨depth + 1, by omega, fun previous => ?_⟩
  have hlast : ∀ op : BinaryOp, op.level ≠ levels.length := fun op => by cases op <;> decide
  rw [operators_stop (by omega) fun op _ => hlast op, Parse.binary, if_pos (by decide)]
  exact h (by omega) hclose previous

/-- A sign and its operand are read. A number behind the sign is a phrase of its own, so it is not the one that
needs a sign. -/
theorem isRead_unary {op : UnaryOp} (hsign : (sign.kind, op) ∈ leading)
    (hw : Derives .operand w e) (h : Category.IsRead .operand w e) :
    Category.IsRead .operand (sign :: w) (.unary op e ()) := by
  intro depth next rest hdepth hclose
  rw [List.length_cons] at hdepth
  obtain ⟨depth, rfl⟩ : ∃ d, depth = d + 1 := ⟨depth - 1, by omega⟩
  obtain ⟨t, u, rfl, ht⟩ := hw.first trivial
  have hsmall : ¬(op = .negate ∧ t.kind = .number ∧ t.text = minIntMagnitude) := by
    rintro ⟨-, hkind, htext⟩
    obtain ⟨n, hn, hnum⟩ := ht.small hkind
    exact ne_minIntMagnitude hn (hnum.symm.trans htext)
  rw [Parse.unary]
  refine .current rfl ?_
  simp only [mem_leading.mp hsign]
  refine .advance (List.cons_ne_nil _ _) (.current rfl ?_)
  rw [if_neg hsmall]
  exact (h (by omega) hclose).map

theorem isRead_least {number : Token} (hsign : sign.kind = .minus) (hnumber : number.kind = .number)
    (htext : number.text = toString magnitude) :
    Category.IsRead .operand [sign, number] (.int Int64.minValue ()) := by
  intro depth next rest hdepth hclose
  obtain ⟨depth, rfl⟩ : ∃ d, depth = d + 1 := ⟨depth - 1, by omega⟩
  rw [Parse.unary]
  refine .current rfl ?_
  simp only [hsign, unaryOp?]
  refine .advance (List.cons_ne_nil _ _) (.current rfl ?_)
  rw [if_pos ⟨trivial, hnumber, htext.trans toString_magnitude⟩]
  exact .advance (List.cons_ne_nil _ _) .pure

theorem isRead_primary (hw : Derives .primary w e) (h : Category.IsRead .primary w e) :
    Category.IsRead .operand w e := by
  intro depth next rest hdepth hclose
  obtain ⟨depth, rfl⟩ : ∃ d, depth = d + 1 := ⟨depth - 1, by omega⟩
  obtain ⟨t, u, rfl, ht⟩ := hw.primary_first
  rw [Parse.unary]
  refine .current rfl ?_
  simp only [ht]
  exact h (by omega) hclose

theorem isRead_number {n : Nat} (ht : t.kind = .number) (htext : t.text = toString n)
    (hn : n < magnitude) : Category.IsRead .primary [t] (.int (Int64.ofNat n) ()) := by
  intro depth next rest hdepth hclose
  obtain ⟨depth, rfl⟩ : ∃ d, depth = d + 1 := ⟨depth - 1, by omega⟩
  rw [Parse.primary]
  refine .current rfl ?_
  simp only [ht, numberValue_toString htext hn]
  exact .advance (List.cons_ne_nil _ _) (Reads.pure.map (g := fun n => (.int n () : Expr .parsed)))

theorem isRead_string (ht : t.kind = .string) : Category.IsRead .primary [t] (.string t.text ()) := by
  intro depth next rest hdepth hclose
  obtain ⟨depth, rfl⟩ : ∃ d, depth = d + 1 := ⟨depth - 1, by omega⟩
  rw [Parse.primary]
  refine .current rfl ?_
  simp only [ht]
  exact .advance (List.cons_ne_nil _ _) .pure

theorem isRead_truth {value : Bool} (ht : (t.kind, value) ∈ truthWords) :
    Category.IsRead .primary [t] (.bool value ()) := by
  intro depth next rest hdepth hclose
  obtain ⟨depth, rfl⟩ : ∃ d, depth = d + 1 := ⟨depth - 1, by omega⟩
  rw [Parse.primary]
  refine .current rfl ?_
  simp only [truthWords, List.mem_cons, Prod.mk.injEq, List.not_mem_nil, or_false] at ht
  rcases ht with ⟨ht, rfl⟩ | ⟨ht, rfl⟩ <;> simp only [ht] <;>
    exact .advance (List.cons_ne_nil _ _) .pure

theorem isRead_var (ht : t.kind = .ident) : Category.IsRead .primary [t] (.var t.text ()) := by
  intro depth next rest hdepth hclose
  obtain ⟨depth, rfl⟩ : ∃ d, depth = d + 1 := ⟨depth - 1, by omega⟩
  rw [Parse.primary]
  refine .current rfl ?_
  simp only [ht]
  exact .advance (List.cons_ne_nil _ _) .pure

theorem isRead_unit (hopen : opening.kind = .lparen) (hclosing : closing.kind = .rparen) :
    Category.IsRead .primary [opening, closing] (.unit ()) := by
  intro depth next rest hdepth hclose
  obtain ⟨depth, rfl⟩ : ∃ d, depth = d + 1 := ⟨depth - 1, by omega⟩
  rw [Parse.primary]
  refine .current rfl ?_
  simp only [hopen]
  exact .advance (List.cons_ne_nil _ _) (.accept hclosing (List.cons_ne_nil _ _) .pure)

theorem isRead_paren (hopen : opening.kind = .lparen) (hclosing : closing.kind = .rparen)
    (hw : Derives .expression w e) (h : Category.IsRead .expression w e) :
    Category.IsRead .primary (opening :: (w ++ [closing])) e := by
  intro depth next rest hdepth hclose
  obtain ⟨depth, rfl⟩ : ∃ d, depth = d + 1 := ⟨depth - 1, by omega⟩
  rw [List.length_cons, List.length_append] at hdepth
  obtain ⟨t, u, rfl, ht⟩ := hw.first trivial
  rw [Parse.primary]
  refine .current rfl ?_
  simp only [hopen]
  refine .advance (List.cons_ne_nil _ _) (.refuse rfl (ht.ne rfl) ?_)
  refine .bind (h (by omega) (ends_of_kind hclosing (by decide))) ?_
  exact .expect hclosing (List.cons_ne_nil _ _) .pure

theorem isRead_braced (hw : Derives .block w body) (h : Category.IsRead .block w body) :
    Category.IsRead .primary w (.block body ()) := by
  intro depth next rest hdepth hclose
  obtain ⟨depth, rfl⟩ : ∃ d, depth = d + 1 := ⟨depth - 1, by omega⟩
  obtain ⟨t, u, rfl, ht⟩ := hw.block_first
  rw [Parse.primary]
  refine .current rfl ?_
  simp only [ht]
  exact (h (by omega) (List.cons_ne_nil _ _)).map

/-- A choice is read from its condition, its body and the other branches. -/
theorem isRead_choice (hword : word.kind = .kwIf) (hcond : Category.IsRead .expression u cond)
    (hv : Derives .block v body) (hbody : Category.IsRead .block v body)
    (hothers : Category.IsRead .branches w others) :
    Category.IsRead .primary (word :: (u ++ (v ++ w))) (.choice cond body others ()) := by
  intro depth next rest hdepth hclose
  obtain ⟨depth, rfl⟩ : ∃ d, depth = d + 1 := ⟨depth - 1, by omega⟩
  simp only [List.length_cons, List.length_append] at hdepth
  obtain ⟨t, v, rfl, ht⟩ := hv.block_first
  rw [Parse.primary]
  refine .current rfl ?_
  simp only [hword]
  refine .advance (List.cons_ne_nil _ _) ?_
  refine .bind (hcond (by omega) (ends_of_kind ht (by decide))) ?_
  refine .bind (hbody (by omega) (List.append_ne_nil_of_right_ne_nil _ (List.cons_ne_nil _ _))) ?_
  exact (hothers (by omega) hclose).map

theorem isRead_loop (hword : word.kind = .kwWhile) (hcond : Category.IsRead .expression u cond)
    (hv : Derives .block v body) (hbody : Category.IsRead .block v body) :
    Category.IsRead .primary (word :: (u ++ v)) (.loop cond body ()) := by
  intro depth next rest hdepth hclose
  obtain ⟨depth, rfl⟩ : ∃ d, depth = d + 1 := ⟨depth - 1, by omega⟩
  simp only [List.length_cons, List.length_append] at hdepth
  obtain ⟨t, v, rfl, ht⟩ := hv.block_first
  rw [Parse.primary]
  refine .current rfl ?_
  simp only [hword]
  refine .advance (List.cons_ne_nil _ _) ?_
  refine .bind (hcond (by omega) (ends_of_kind ht (by decide))) ?_
  exact (hbody (by omega) (List.cons_ne_nil _ _)).map

theorem isRead_done : Category.IsRead .branches [] .done := by
  intro depth next rest hdepth hclose
  obtain ⟨depth, rfl⟩ : ∃ d, depth = d + 1 := ⟨depth - 1, by omega⟩
  rw [Parse.branches]
  exact .refuse rfl hclose.1 (.refuse rfl hclose.2 .pure)

theorem isRead_otherwise (hword : word.kind = .kwElse) (h : Category.IsRead .block w body) :
    Category.IsRead .branches (word :: w) (.otherwise body) := by
  intro depth next rest hdepth hclose
  obtain ⟨depth, rfl⟩ : ∃ d, depth = d + 1 := ⟨depth - 1, by omega⟩
  rw [List.length_cons] at hdepth
  rw [Parse.branches]
  refine .refuse rfl (by rw [hword]; decide) ?_
  exact .accept hword (List.cons_ne_nil _ _) (h (by omega) (List.cons_ne_nil _ _)).map

theorem isRead_orIf (hword : word.kind = .kwElif) (hcond : Category.IsRead .expression u cond)
    (hv : Derives .block v body) (hbody : Category.IsRead .block v body)
    (hothers : Category.IsRead .branches w others) :
    Category.IsRead .branches (word :: (u ++ (v ++ w))) (.orIf cond body others) := by
  intro depth next rest hdepth hclose
  obtain ⟨depth, rfl⟩ : ∃ d, depth = d + 1 := ⟨depth - 1, by omega⟩
  simp only [List.length_cons, List.length_append] at hdepth
  obtain ⟨t, v, rfl, ht⟩ := hv.block_first
  rw [Parse.branches]
  refine .accept hword (List.cons_ne_nil _ _) ?_
  refine .bind (hcond (by omega) (ends_of_kind ht (by decide))) ?_
  refine .bind (hbody (by omega) (List.append_ne_nil_of_right_ne_nil _ (List.cons_ne_nil _ _))) ?_
  exact (hothers (by omega) hclose).map

theorem isRead_block (hopen : opening.kind = .lbrace) (hclosing : closing.kind = .rbrace)
    (h : Category.IsRead .body w body) :
    Category.IsRead .block (opening :: (w ++ [closing])) body := by
  intro depth rest hdepth hrest
  rw [List.length_cons, List.length_append] at hdepth
  obtain ⟨depth, rfl⟩ : ∃ d, depth = d + 1 := ⟨depth - 1, by omega⟩
  rw [Parse.block]
  refine .expect hopen hrest ?_
  refine .bind (h (by omega) (.inl rfl) hclosing) ?_
  exact .expect hclosing hrest .pure

section Bodies

variable {s : Stmt .parsed} {rest : List Token} {stop : TokenKind}

theorem Category.Begins.ne_stop (h : Category.Begins .statement t)
    (hstop : stop = .rbrace ∨ stop = .eof) : t.kind ≠ stop ∧ t.kind ≠ .eof := by
  refine ⟨?_, h.ne rfl⟩
  rcases hstop with rfl | rfl <;> exact h.ne rfl

theorem isRead_empty : Category.IsRead .body [] [] := by
  intro depth stop next rest hdepth hstop hnext
  exact stmts_stop (by omega) hnext

theorem isRead_last (hw : Derives .statement w s) (h : Category.IsRead .statement w s) :
    Category.IsRead .body w [s] := by
  intro depth stop next rest hdepth hstop hnext
  obtain ⟨depth, rfl⟩ : ∃ d, depth = d + 1 := ⟨depth - 1, by omega⟩
  obtain ⟨first, u, rfl, hfirst⟩ := hw.first trivial
  have hkind : next.kind = .rbrace ∨ next.kind = .eof := hnext ▸ hstop
  have hends : Ends next := ends_of_kind rfl (.inr (.inr (hkind.imp_right .inr)))
  have hsemi : next.kind ≠ .semi := by rcases hkind with h | h <;> rw [h] <;> decide
  have hread : Reads (Parse.stmt depth) (first :: u) s ([] ++ next :: rest) := h (by omega) hends
  rw [← List.append_nil (first :: u)]
  exact stmts_undivided hread (hfirst.ne_stop hstop) rfl hsemi (.inl hnext)
    (stmts_stop (by omega) hnext)

theorem isRead_divided {semi : Token} (hw : Derives .statement w s) (hsemi : semi.kind = .semi)
    (h : Category.IsRead .statement w s) (hbody : Category.IsRead .body v body) :
    Category.IsRead .body (w ++ semi :: v) (s :: body) := by
  intro depth stop next rest hdepth hstop hnext
  obtain ⟨depth, rfl⟩ : ∃ d, depth = d + 1 := ⟨depth - 1, by omega⟩
  rw [List.length_append, List.length_cons] at hdepth
  obtain ⟨first, u, rfl, hfirst⟩ := hw.first trivial
  exact stmts_divided (h (by omega) (ends_of_kind hsemi (by decide))) (hfirst.ne_stop hstop) hsemi
    (hbody (by omega) hstop hnext) (List.cons_ne_nil _ _)

/-- A statement that ends with a brace and the body behind it are read, if no sign of an operator follows the
brace. -/
theorem isRead_undivided {brace next : Token} (hw : Derives .statement (w ++ [brace]) s)
    (hbrace : brace.kind = .rbrace) (hsign : ∀ level op, ¬Joins level next.kind op)
    (hv : Derives .body (next :: v) body) (h : Category.IsRead .statement (w ++ [brace]) s)
    (hbody : Category.IsRead .body (next :: v) body) :
    Category.IsRead .body (w ++ brace :: next :: v) (s :: body) := by
  intro depth stop behind rest hdepth hstop hbehind
  obtain ⟨depth, rfl⟩ : ∃ d, depth = d + 1 := ⟨depth - 1, by omega⟩
  have hnext := hv.body_first
  rw [List.append_cons, List.length_append] at hdepth
  obtain ⟨first, u, heq, hfirst⟩ := hw.first trivial
  have hlast : (u.getLastD first).kind = .rbrace := by
    rw [← List.getLastD_cons (a := first), ← heq, List.getLastD_append]
    exact hbrace
  rw [heq] at h hdepth
  have hlength : 0 < (first :: u).length := Nat.succ_pos _
  have hread : Reads (Parse.stmt depth) (first :: u) s (next :: v ++ behind :: rest) :=
    h (by omega) (ends_of_begins hnext hsign)
  rw [List.append_cons, heq]
  exact stmts_undivided hread (hfirst.ne_stop hstop) rfl (hnext.ne rfl) (.inr hlast)
    (hbody (by omega) hstop hbehind)

theorem isRead_declare {type : Ty} (hword : (word.kind, type) ∈ typeWords)
    (hname : name.kind = .ident) (hsign : sign.kind = .eq) (h : Category.IsRead .expression w e) :
    Category.IsRead .statement (word :: name :: sign :: w) (.declare type name.text e word) := by
  intro depth next rest hdepth hnext
  obtain ⟨depth, rfl⟩ : ∃ d, depth = d + 1 := ⟨depth - 1, by omega⟩
  simp only [List.length_cons] at hdepth
  rw [Parse.stmt]
  refine .current rfl ?_
  simp only [mem_typeWords.mp hword]
  refine .advance (List.cons_ne_nil _ _) (.expect hname (List.cons_ne_nil _ _) ?_)
  exact .expect hsign (List.cons_ne_nil _ _) (h (by omega) hnext).map

theorem isRead_write {newline : Bool} (hword : (word.kind, newline) ∈ writeWords)
    (h : Category.IsRead .expression w e) :
    Category.IsRead .statement (word :: w) (.write newline e () word) := by
  intro depth next rest hdepth hnext
  obtain ⟨depth, rfl⟩ : ∃ d, depth = d + 1 := ⟨depth - 1, by omega⟩
  rw [List.length_cons] at hdepth
  rw [Parse.stmt]
  refine .current rfl ?_
  simp only [writeWords, List.mem_cons, Prod.mk.injEq, List.not_mem_nil, or_false] at hword
  rcases hword with ⟨hword, rfl⟩ | ⟨hword, rfl⟩ <;> simp only [hword, declaredType?] <;>
    exact .advance (List.cons_ne_nil _ _) (h (by omega) hnext).map

theorem isRead_leave (hword : word.kind = .kwBreak) :
    Category.IsRead .statement [word] (.leave word) := by
  intro depth next rest hdepth hnext
  obtain ⟨depth, rfl⟩ : ∃ d, depth = d + 1 := ⟨depth - 1, by omega⟩
  rw [Parse.stmt]
  refine .current rfl ?_
  simp only [hword, declaredType?]
  exact .advance (List.cons_ne_nil _ _) .pure

theorem isRead_again (hword : word.kind = .kwContinue) :
    Category.IsRead .statement [word] (.again word) := by
  intro depth next rest hdepth hnext
  obtain ⟨depth, rfl⟩ : ∃ d, depth = d + 1 := ⟨depth - 1, by omega⟩
  rw [Parse.stmt]
  refine .current rfl ?_
  simp only [hword, declaredType?]
  exact .advance (List.cons_ne_nil _ _) .pure

/-- An expression is read as a statement, since it begins as no other statement does. -/
theorem isRead_exprStmt (hw : Derives .expression (t :: w) e)
    (h : Category.IsRead .expression (t :: w) e) :
    Category.IsRead .statement (t :: w) (.expr e t) := by
  intro depth next rest hdepth hnext
  obtain ⟨depth, rfl⟩ : ∃ d, depth = d + 1 := ⟨depth - 1, by omega⟩
  obtain ⟨first, more, heq, hfirst⟩ := hw.first trivial
  obtain rfl : t = first := (List.cons.inj heq).1
  have hnone : declaredType? t.kind = none := by
    have htable : ∀ p ∈ typeWords, opensExpression p.1 = false := by decide
    cases htype : declaredType? t.kind with
    | none => rfl
    | some type => exact absurd rfl (hfirst.ne (htable _ (mem_typeWords.mpr htype)))
  rw [Parse.stmt]
  refine .current rfl ?_
  simp only [hnone]
  split
  case h_1 hk | h_2 hk | h_3 hk | h_4 hk => exact absurd hk (hfirst.ne rfl)
  case h_5 => exact (h (by omega) hnext).map

end Bodies

end Productions

/-- Every phrase of the grammar is read as its tree. -/
theorem Derives.isRead {c : Category} {w : List Token} {tree : c.Tree} (h : Derives c w tree) :
    c.IsRead w tree := by
  induction h with
  | assign hname hsign _ ih => exact isRead_assign hname hsign ih
  | operation h ih => exact isRead_expression h ih
  | binary hsign _ hv ihu ihv => exact isRead_binary hsign (hv.ne_nil trivial) ihu ihv
  | tighter hlevel h ih => exact isRead_tighter hlevel (h.ne_nil trivial) ih
  | operand _ ih => exact isRead_operand ih
  | unary hsign h ih => exact isRead_unary hsign h ih
  | least hsign hnumber htext => exact isRead_least hsign hnumber htext
  | primary h ih => exact isRead_primary h ih
  | number ht htext hn => exact isRead_number ht htext hn
  | string ht => exact isRead_string ht
  | truth ht => exact isRead_truth ht
  | var ht => exact isRead_var ht
  | unit hopen hclosing => exact isRead_unit hopen hclosing
  | paren hopen h hclosing ih => exact isRead_paren hopen hclosing h ih
  | braced h ih => exact isRead_braced h ih
  | choice hword _ hv _ ihu ihv ihw => exact isRead_choice hword ihu hv ihv ihw
  | loop hword _ hv ihu ihv => exact isRead_loop hword ihu hv ihv
  | done => exact isRead_done
  | otherwise hword _ ih => exact isRead_otherwise hword ih
  | orIf hword _ hv _ ihu ihv ihw => exact isRead_orIf hword ihu hv ihv ihw
  | block hopen _ hclosing ih => exact isRead_block hopen hclosing ih
  | empty => exact isRead_empty
  | last h ih => exact isRead_last h ih
  | divided h hsemi _ ih ihbody => exact isRead_divided h hsemi ih ihbody
  | undivided h hbrace hsign hv ih ihbody => exact isRead_undivided h hbrace hsign hv ih ihbody
  | declare hword hname hsign _ ih => exact isRead_declare hword hname hsign ih
  | write hword _ ih => exact isRead_write hword ih
  | leave hword => exact isRead_leave hword
  | again hword => exact isRead_again hword
  | expr h ih => exact isRead_exprStmt h ih

end BlockLang.Grammar

import BlockLang.Proofs.Phrases
import Mathlib.Data.List.TakeWhile

/-! The parser and its grammar. Whatever the parser reads is a phrase of the grammar, and the token
behind the phrase cannot go on with it: one lemma for each reader, from the readers of the depth below.
Together with the reading of phrases this says that the parser accepts the phrases of the grammar and
nothing else, and that no phrase stands for two trees. -/

namespace BlockLang.Grammar

open Parse Sequence

/-- If a token is the sign of an operator, the operator is looser than a level. -/
def Looser (level : Nat) (t : Token) : Prop := ∀ op, binaryOp? t.kind = some op → op.level < level

theorem Looser.not_joins {t : Token} (h : Looser 0 t) (level : Nat) (op : BinaryOp) :
    ¬Joins level t.kind op := by
  intro hjoin
  exact absurd (h op (joins_iff.mp hjoin).1) (Nat.not_lt_zero _)

theorem looser_tightest (t : Token) : Looser levels.length t := by
  intro op _
  cases op <;> decide

theorem numberValue_magnitude {t : Token} (htext : t.text = toString magnitude) :
    numberValue t = fail .numberOutOfRange t := by
  have hlarge : Nat.pow 2 63 ≤ magnitude := Nat.le_refl _
  rw [numberValue, htext, Text.readSigned_toString (by decide), if_pos hlarge]

/-- A number is found if it needs no sign; without one the magnitude of the least integer is out of range. -/
theorem finds_number {t : Token} (ht : t.kind = .number) (hproper : t.Proper) :
    Finds Token.Proper (fun _ => True) (numberValue t >>= fun n => pure (.int n ()))
      (fun v e => Derives .primary (t :: v) e) fun _ _ => True := by
  obtain ⟨n, hn, htext⟩ := hproper ht
  rcases Nat.lt_or_eq_of_le hn with hsmall | rfl
  · rw [numberValue_toString htext hsmall, pure_bind]
    exact .pure (.number ht htext hsmall) fun _ _ => trivial
  · rw [numberValue_magnitude htext]
    show Finds Token.Proper _ (fail .numberOutOfRange t) _ _
    exact .fail

/-- The tokens that can stand behind a statement. -/
def Follows : Stmt .parsed → Token → Prop
  | .leave _, _ | .again _, _ => True
  | _, t => Looser 0 t

/-- A statement that ends with a brace is followed by no sign of an operator. -/
theorem Follows.looser {s : Stmt .parsed} {w : List Token} {t previous : Token} (h : Follows s t)
    (hw : Derives .statement w s) (hlast : (w.getLastD previous).kind = .rbrace) : Looser 0 t := by
  cases hw with
  | declare | write | expr => exact h
  | leave hword | again hword =>
      rw [List.getLastD_cons, List.getLastD_nil, hword] at hlast
      cases hlast

theorem Derives.body_nil {body : Body .parsed} (h : Derives .body [] body) : body = [] := by
  generalize hw : [] = w at h
  cases h with
  | empty => rfl
  | last h => exact absurd hw.symm (h.ne_nil trivial)
  | divided => exact absurd hw.symm (List.append_ne_nil_of_right_ne_nil _ (List.cons_ne_nil _ _))
  | undivided => exact absurd hw.symm (List.append_ne_nil_of_right_ne_nil _ (List.cons_ne_nil _ _))

/-- A statement and the body behind it are a body if the statement ends with a brace or the body is
at its end. -/
theorem Derives.body_cons {s : Stmt .parsed} {body : Body .parsed} {w v rest rest' : List Token}
    {next next' previous : Token} {stop : TokenKind} (hw : Derives .statement w s)
    (hv : Derives .body v body) (heq : next :: rest = v ++ next' :: rest')
    (hstop : stop = .rbrace ∨ stop = .eof) (hnext : Follows s next)
    (hgo : next.kind = stop ∨ next.kind = .eof ∨ (w.getLastD previous).kind = .rbrace) :
    Derives .body (w ++ v) (s :: body) := by
  cases v with
  | nil =>
      rw [hv.body_nil, List.append_nil]
      exact .last hw
  | cons t v =>
      obtain rfl : next = t := (List.cons.inj heq).1
      have hbegins := hv.body_first.ne_stop hstop
      have hlast : (w.getLastD previous).kind = .rbrace := by
        rcases hgo with hgo | hgo | hgo
        · exact absurd hgo hbegins.1
        · exact absurd hgo hbegins.2
        · exact hgo
      have hlooser := hnext.looser hw hlast
      rcases List.eq_nil_or_concat w with rfl | ⟨u, brace, rfl⟩
      · exact absurd rfl (hw.ne_nil trivial)
      · rw [List.concat_eq_append, List.getLastD_append] at hlast
        rw [List.concat_eq_append] at hw ⊢
        rw [List.append_assoc]
        exact .undivided hw hlast hlooser.not_joins hv

/-- What the readers of a depth find. -/
structure Sound (depth : Nat) : Prop where
  expr : Finds Token.Proper (fun _ => True) (Parse.expr depth) (Derives .expression) fun _ => Looser 0
  binary : ∀ {level}, level ≤ levels.length → Finds Token.Proper (fun _ => True)
    (Parse.binary depth level) (Derives (.operation level)) fun _ => Looser level
  operators : ∀ {level u left}, level < levels.length → Derives (.operation level) u left →
    Finds Token.Proper (Looser (level + 1)) (Parse.operators depth level left)
      (fun w e => Derives (.operation level) (u ++ w) e) fun _ => Looser level
  unary : Finds Token.Proper (fun _ => True) (Parse.unary depth) (Derives .operand) fun _ _ => True
  primary : Finds Token.Proper (fun _ => True) (Parse.primary depth) (Derives .primary) fun _ _ => True
  branches : Finds Token.Proper (fun _ => True) (Parse.branches depth) (Derives .branches) fun _ _ => True
  block : Finds Token.Proper (fun _ => True) (Parse.block depth) (Derives .block) fun _ _ => True
  stmts : ∀ {stop}, stop = .rbrace ∨ stop = .eof → Finds Token.Proper (fun _ => True)
    (Parse.stmts depth stop) (Derives .body) fun _ t => t.kind = stop ∨ t.kind = .eof
  stmt : Finds Token.Proper (fun _ => True) (Parse.stmt depth) (Derives .statement) Follows

namespace Sound

variable {depth level : Nat} (h : Sound depth)

include h

/-- An expression that is found is an assignment or an operation of the lowest level. -/
theorem expr_succ :
    Finds Token.Proper (fun _ => True) (Parse.expr (depth + 1)) (Derives .expression)
      fun _ => Looser 0 := by
  constructor
  intro previous first more e s hd hfirst hx
  rw [Parse.expr, bind_of_ok (a := Stream.facing previous (first :: more)) rfl] at hx
  by_cases hassign : (Stream.facing previous (first :: more)).current.kind = .ident ∧
      (Stream.facing previous (first :: more)).peek.kind = .eq
  · rw [if_pos hassign] at hx
    have hname : first.kind = .ident := hassign.1
    have hne : first.kind ≠ .eof := by rw [hname]; decide
    obtain ⟨sign, more, rfl, hd₁, hadvance₁⟩ := hd.pass hne previous
    have hsign : sign.kind = .eq := hassign.2
    have hne' : sign.kind ≠ .eof := by rw [hsign]; decide
    obtain ⟨third, more, rfl, hd₂, hadvance₂⟩ := hd₁.pass hne' first
    rw [bind_of_ok (congrArg (fun s => Except.ok ((), s)) hadvance₁),
      bind_of_ok (congrArg (fun s => Except.ok ((), s)) hadvance₂)] at hx
    obtain ⟨value, s', hvalue, hx⟩ := bind_ok.mp hx
    cases hx
    obtain ⟨w, next, rest, heq, rfl, hw, hd', hp, hb⟩ := h.expr.found hd₂ trivial hvalue
    refine ⟨first :: sign :: w, next, rest, ?_, ?_, ?_, hd', .assign hname hsign hp, hb⟩
    · rw [heq]
      rfl
    · rw [List.getLastD_cons, List.getLastD_cons]
    · exact List.forall_mem_cons.mpr ⟨hne, List.forall_mem_cons.mpr ⟨hne', hw⟩⟩
  · rw [if_neg hassign] at hx
    obtain ⟨w, next, rest, heq, hs, hw, hd', hp, hb⟩ := (h.binary (Nat.zero_le _)).found hd trivial hx
    exact ⟨w, next, rest, heq, hs, hw, hd', .operation hp, hb⟩

theorem binary_succ (hlevel : level ≤ levels.length) :
    Finds Token.Proper (fun _ => True) (Parse.binary (depth + 1) level) (Derives (.operation level))
      fun _ => Looser level := by
  rw [Parse.binary]
  by_cases htight : BinaryOp.tightest < level
  · obtain rfl : level = levels.length := Nat.le_antisymm hlevel htight
    rw [if_pos htight]
    exact h.unary.mono (fun _ _ => trivial) (fun _ _ => .operand) fun _ t _ => looser_tightest t
  · have hlt : level < levels.length := Nat.lt_succ_of_le (Nat.not_lt.mp htight)
    rw [if_neg htight]
    exact .bind (h.binary hlt) fun u left hu => h.operators hlt (.tighter hlt hu)

/-- The operators of a level group to the left, with what has been found so far as the left operand. -/
theorem operators_succ {u : List Token} {left : Expr .parsed} (hlevel : level < levels.length)
    (hu : Derives (.operation level) u left) :
    Finds Token.Proper (Looser (level + 1)) (Parse.operators (depth + 1) level left)
      (fun w e => Derives (.operation level) (u ++ w) e) fun _ => Looser level := by
  have hleft : Derives (.operation level) (u ++ []) left := by rwa [List.append_nil]
  rw [Parse.operators]
  refine .current fun t ht => ?_
  cases hop : binaryOp? t.kind with
  | none =>
      refine .pure hleft ?_
      rintro _ rfl op hop'
      rw [hop] at hop'
      cases hop'
  | some op =>
      by_cases hsame : op.level = level
      · have hjoin : Joins level t.kind op := joins_iff.mpr ⟨hop, hsame⟩
        have hne : t.kind ≠ .eof := by
          intro hk
          rw [hk] at hop
          cases hop
        simp only [if_pos hsame]
        refine .advance hne fun _ => ?_
        refine .bind (h.binary hlevel).at_front ?_
        intro v right hv
        refine (h.operators hlevel (.binary hjoin hu hv)).mono (fun _ => id) ?_ fun _ _ => id
        intro w e hw
        rwa [List.append_assoc] at hw
      · simp only [if_neg hsame]
        refine .pure hleft ?_
        rintro _ rfl op' hop'
        rw [hop] at hop'
        cases hop'
        have := ht op hop
        omega

/-- An operand that is found is a sign and an operand, the least integer, or one without a sign. -/
theorem unary_succ :
    Finds Token.Proper (fun _ => True) (Parse.unary (depth + 1)) (Derives .operand) fun _ _ => True := by
  rw [Parse.unary]
  refine .current fun t _ => ?_
  cases hop : unaryOp? t.kind with
  | none => exact h.primary.mono (fun _ _ => trivial) (fun _ _ => .primary) fun _ _ => id
  | some op =>
      have hne : t.kind ≠ .eof := by
        intro hk
        rw [hk] at hop
        cases hop
      refine .advance hne fun _ => ?_
      refine .current fun next _ => ?_
      by_cases hleast : op = .negate ∧ next.kind = .number ∧ next.text = minIntMagnitude
      · obtain ⟨rfl, hnumber, htext⟩ := hleast
        have hsign : t.kind = .minus := by
          generalize t.kind = k at hop
          cases k <;> cases hop
          rfl
        rw [if_pos ⟨rfl, hnumber, htext⟩]
        refine .advance (by rw [hnumber]; decide) fun _ => ?_
        exact .pure (.least hsign hnumber (htext.trans toString_magnitude.symm)) fun _ _ => trivial
      · rw [if_neg hleast]
        refine .map h.unary.at_front ?_
          fun _ _ _ => trivial
        exact fun w e hw => .unary (mem_leading.mpr hop) hw

/-- An operand without a sign is found by its first token. -/
theorem primary_succ :
    Finds Token.Proper (fun _ => True) (Parse.primary (depth + 1)) (Derives .primary)
      fun _ _ => True := by
  rw [Parse.primary]
  refine .current fun t _ => ?_
  split
  case h_1 ht =>
    refine .advance (by rw [ht]; decide) fun hproper => ?_
    exact finds_number ht hproper
  case h_2 ht =>
    refine .advance (by rw [ht]; decide) fun _ => ?_
    exact .pure (.string ht) fun _ _ => trivial
  case h_3 ht | h_4 ht =>
    refine .advance (by rw [ht]; decide) fun _ => ?_
    exact .pure (.truth (by rw [ht]; decide)) fun _ _ => trivial
  case h_5 ht =>
    refine .advance (by rw [ht]; decide) fun _ => ?_
    exact .pure (.var ht) fun _ _ => trivial
  case h_6 hopen =>
    refine .advance (by rw [hopen]; decide) fun _ => ?_
    refine .bind (.accept (by decide)) ?_
    rintro v (_ | _) hv
    · obtain rfl : v = [] := hv
      refine .bind h.expr.at_front fun w e hw => ?_
      refine .map (.expect (by decide)) ?_ fun _ _ _ => trivial
      rintro _ closing ⟨rfl, hclosing⟩
      exact .paren hopen hw hclosing
    · obtain ⟨closing, rfl, hclosing⟩ := hv
      exact .pure (.unit hopen hclosing) fun _ _ => trivial
  case h_7 =>
    exact .map h.block.at_front
      (fun _ _ => .braced) fun _ _ _ => trivial
  case h_8 hword =>
    refine .advance (by rw [hword]; decide) fun _ => ?_
    refine .bind h.expr fun u cond hu => ?_
    refine .bind h.block.at_front fun v body hv => ?_
    exact .map h.branches (fun _ _ => .choice hword hu hv) fun _ _ _ => trivial
  case h_9 hword =>
    refine .advance (by rw [hword]; decide) fun _ => ?_
    refine .bind h.expr fun u cond hu => ?_
    exact .map h.block.at_front
      (fun _ _ => .loop hword hu) fun _ _ _ => trivial
  case h_10 => exact .fail

theorem branches_succ :
    Finds Token.Proper (fun _ => True) (Parse.branches (depth + 1)) (Derives .branches)
      fun _ _ => True := by
  rw [Parse.branches]
  refine .bind (.accept (by decide)) ?_
  rintro u (_ | _) hu
  · obtain rfl : u = [] := hu
    refine .bind (.accept (by decide)) ?_
    rintro v (_ | _) hv
    · obtain rfl : v = [] := hv
      exact .pure .done fun _ _ => trivial
    · obtain ⟨word, rfl, hword⟩ := hv
      exact .map h.block.at_front
        (fun _ _ => .otherwise hword) fun _ _ _ => trivial
  · obtain ⟨word, rfl, hword⟩ := hu
    refine .bind h.expr.at_front fun u cond hu => ?_
    refine .bind h.block.at_front fun v body hv => ?_
    exact .map h.branches (fun _ _ => .orIf hword hu hv) fun _ _ _ => trivial

theorem block_succ :
    Finds Token.Proper (fun _ => True) (Parse.block (depth + 1)) (Derives .block) fun _ _ => True := by
  rw [Parse.block]
  refine .bind (.expect (by decide)) ?_
  rintro _ opening ⟨rfl, hopen⟩
  refine .bind (h.stmts (.inl rfl)) fun w body hw => ?_
  refine .map (.expect (by decide)) ?_ fun _ _ _ => trivial
  rintro _ closing ⟨rfl, hclosing⟩
  exact .block hopen hw hclosing

/-- Statements are found up to the end of their body, divided where they have to be. -/
theorem stmts_succ {stop : TokenKind} (hstop : stop = .rbrace ∨ stop = .eof) :
    Finds Token.Proper (fun _ => True) (Parse.stmts (depth + 1) stop) (Derives .body)
      fun _ t => t.kind = stop ∨ t.kind = .eof := by
  constructor
  intro previous first more body s hd _ hx
  rw [Parse.stmts, bind_of_ok (a := first) rfl] at hx
  by_cases hfirst : first.kind = stop ∨ first.kind = .eof
  · rw [if_pos hfirst] at hx
    cases hx
    exact ⟨[], first, more, rfl, rfl, List.forall_mem_nil _, hd, .empty, hfirst⟩
  rw [if_neg hfirst] at hx
  obtain ⟨statement, s₁, hstmt, hx⟩ := bind_ok.mp hx
  obtain ⟨w, next, rest, heq, rfl, hw, hd₁, hp, hb⟩ := h.stmt.found hd trivial hstmt
  by_cases hsemi : next.kind = .semi
  · have hne : next.kind ≠ .eof := by rw [hsemi]; decide
    obtain ⟨third, more, rfl, hd₂, hadvance⟩ := hd₁.pass hne (w.getLastD previous)
    have haccept : Parse.accept .semi (.facing (w.getLastD previous) (next :: third :: more)) =
        .ok (true, .facing next (third :: more)) := by
      rw [Parse.accept, Stream.current_facing, if_pos hsemi, hadvance]
    rw [bind_of_ok haccept, bind_of_ok (a := Stream.facing next (third :: more)) rfl,
      if_pos (.inl rfl)] at hx
    obtain ⟨others, s₂, hothers, hx⟩ := bind_ok.mp hx
    cases hx
    obtain ⟨v, next', rest', heq', rfl, hv, hd', hp', hb'⟩ := (h.stmts hstop).found hd₂ trivial hothers
    refine ⟨w ++ next :: v, next', rest', ?_, ?_, ?_, hd', .divided hp hsemi hp', hb'⟩
    · rw [heq, heq', List.append_assoc]
      rfl
    · rw [List.getLastD_append, List.getLastD_cons]
    · exact List.forall_mem_append.mpr ⟨hw, List.forall_mem_cons.mpr ⟨hne, hv⟩⟩
  · have haccept : Parse.accept .semi (.facing (w.getLastD previous) (next :: rest)) =
        .ok (false, .facing (w.getLastD previous) (next :: rest)) := if_neg hsemi
    rw [bind_of_ok haccept, bind_of_ok (a := Stream.facing (w.getLastD previous) (next :: rest)) rfl]
      at hx
    split at hx
    case isFalse => cases hx
    case isTrue hgo =>
      obtain ⟨others, s₂, hothers, hx⟩ := bind_ok.mp hx
      cases hx
      obtain ⟨v, next', rest', heq', rfl, hv, hd', hp', hb'⟩ :=
        (h.stmts hstop).found hd₁ trivial hothers
      have hbody := hp.body_cons hp' heq' hstop hb (hgo.resolve_left Bool.false_ne_true)
      refine ⟨w ++ v, next', rest', ?_, ?_, List.forall_mem_append.mpr ⟨hw, hv⟩, hd', hbody, hb'⟩
      · rw [heq, heq', List.append_assoc]
      · rw [List.getLastD_append]

/-- A statement is found one level deeper, marked with the first token that was looked at. -/
theorem stmt_succ :
    Finds Token.Proper (fun _ => True) (Parse.stmt (depth + 1)) (Derives .statement) Follows := by
  rw [Parse.stmt]
  refine .current fun t _ => ?_
  cases htype : declaredType? t.kind with
  | some type =>
      have hne : t.kind ≠ .eof := by
        intro hk
        rw [hk] at htype
        cases htype
      refine .advance hne fun _ => ?_
      refine .bind (.expect (by decide)) ?_
      rintro _ name ⟨rfl, hname⟩
      refine .bind (.expect (by decide)) ?_
      rintro _ sign ⟨rfl, hsign⟩
      exact .map h.expr (fun _ _ => .declare (mem_typeWords.mpr htype) hname hsign) fun _ _ => id
  | none =>
      simp only
      split
      case h_1 hword | h_2 hword =>
        refine .advance (by rw [hword]; decide) fun _ => ?_
        exact .map h.expr (fun _ _ => .write (by rw [hword]; decide)) fun _ _ => id
      case h_3 hword =>
        refine .advance (by rw [hword]; decide) fun _ => ?_
        exact .pure (.leave hword) fun _ _ => trivial
      case h_4 hword =>
        refine .advance (by rw [hword]; decide) fun _ => ?_
        exact .pure (.again hword) fun _ _ => trivial
      case h_5 =>
        refine .map (h.expr.at_front.first fun _ _ hw => hw.ne_nil trivial) ?_ fun _ _ => id
        rintro _ e ⟨hw, first, u, rfl, rfl⟩
        exact .expr hw

end Sound

/-- At no depth do the readers find anything else. -/
theorem sound (depth : Nat) : Sound depth := by
  induction depth with
  | zero =>
    exact ⟨
      by rw [Parse.expr]; exact .current fun _ _ => .fail,
      fun _ => by rw [Parse.binary]; exact .current fun _ _ => .fail,
      fun _ _ => by rw [Parse.operators]; exact .current fun _ _ => .fail,
      by rw [Parse.unary]; exact .current fun _ _ => .fail,
      by rw [Parse.primary]; exact .current fun _ _ => .fail,
      by rw [Parse.branches]; exact .current fun _ _ => .fail,
      by rw [Parse.block]; exact .current fun _ _ => .fail,
      fun _ => by rw [Parse.stmts]; exact .current fun _ _ => .fail,
      by rw [Parse.stmt]; exact .current fun _ _ => .fail⟩
  | succ depth h => exact ⟨h.expr_succ, h.binary_succ, h.operators_succ, h.unary_succ, h.primary_succ,
      h.branches_succ, h.block_succ, h.stmts_succ, h.stmt_succ⟩

/-! ### Whole programs -/

/-- The tokens in front of the first end marker. -/
def front (tokens : List Token) : List Token := tokens.takeWhile (·.kind != .eof)

theorem front_append {w rest : List Token} {last : Token} (hw : ∀ t ∈ w, t.kind ≠ .eof)
    (hlast : last.kind = .eof) : front (w ++ last :: rest) = w := by
  rw [front, List.takeWhile_append_of_pos fun t ht => bne_iff_ne.mpr (hw t ht),
    List.takeWhile_cons_of_neg (by rw [hlast]; decide), List.append_nil]

theorem ne_of_mem_front {tokens : List Token} {t : Token} (h : t ∈ front tokens) :
    t.kind ≠ .eof := by
  have hne := List.mem_takeWhile_imp h
  exact bne_iff_ne.mp hne

/-- Tokens with an end marker are those in front of the first one, the marker, and what is behind. -/
theorem exists_eq_front_append {tokens : List Token} (h : ∃ t ∈ tokens, t.kind = .eof) :
    ∃ last rest, tokens = front tokens ++ last :: rest ∧ last.kind = .eof := by
  obtain ⟨t, hmem, ht⟩ := h
  cases hrest : tokens.dropWhile (·.kind != .eof) with
  | nil =>
      have hne := List.dropWhile_eq_nil_iff.mp hrest t hmem
      rw [ht] at hne
      cases hne
  | cons last rest =>
      refine ⟨last, rest, ?_, ?_⟩
      · rw [front, ← hrest, List.takeWhile_append_dropWhile]
      · have hlast := List.head?_dropWhile_not (·.kind != .eof) tokens
        rw [hrest] at hlast
        simpa using hlast

theorem parse_eq_ok {tokens : List Token} {body : Body .parsed} :
    parse tokens = .ok body ↔
      ∃ s, program (depthBound tokens) (.facing {} tokens) = .ok (body, s) := by
  rw [parse, Stream.facing_ofTokens]
  exact run'_eq_ok

/-- A phrase in front of the end marker is parsed as its tree. -/
theorem parse_of_derives {w rest : List Token} {last : Token} {body : Body .parsed}
    (hlast : last.kind = .eof) (h : Derives .body w body) :
    parse (w ++ last :: rest) = .ok body := by
  have hdepth : 16 * w.length + 11 ≤ depthBound (w ++ last :: rest) := by
    rw [depthBound, List.length_append]
    omega
  have hread : Reads (Parse.stmts (depthBound (w ++ last :: rest)) .eof) w body (last :: rest) :=
    h.isRead hdepth (.inr rfl) hlast
  have hexpect : ∀ previous, Parse.expect .eof .endOfFile (.facing previous (last :: rest)) =
      .ok (last, (Stream.facing previous (last :: rest)).advance) := fun _ => if_pos hlast
  refine parse_eq_ok.mpr ⟨(Stream.facing (w.getLastD {}) (last :: rest)).advance, ?_⟩
  rw [program, bind_of_ok (hread {}), bind_of_ok (hexpect _)]
  rfl

/-- A list of tokens that is parsed is a phrase up to its first end marker. -/
theorem derives_of_parse {w rest : List Token} {last : Token} {body : Body .parsed}
    (hw : ∀ t ∈ w, t.kind ≠ .eof) (hlast : last.kind = .eof)
    (hd : Delimited Token.Proper (w ++ last :: rest)) (h : parse (w ++ last :: rest) = .ok body) :
    Derives .body w body := by
  obtain ⟨s, h⟩ := parse_eq_ok.mp h
  obtain ⟨_, s₁, hstmts, h⟩ := bind_ok.mp h
  obtain ⟨_, _, _, h⟩ := bind_ok.mp h
  cases h
  obtain ⟨first, more, htokens⟩ : ∃ first more, w ++ last :: rest = first :: more :=
    List.exists_cons_of_ne_nil (List.append_ne_nil_of_right_ne_nil w (List.cons_ne_nil last rest))
  rw [htokens] at hstmts hd
  obtain ⟨v, next, rest', heq, -, hv, -, hp, hnext⟩ :=
    ((sound _).stmts (.inr rfl)).found hd trivial hstmts
  have hfront : front (first :: more) = w := by rw [← htokens, front_append hw hlast]
  rw [heq, front_append hv (or_self_iff.mp hnext)] at hfront
  rwa [← hfront]

/-- Of tokens with an end marker, the parser accepts the phrases of the grammar and nothing else, and
takes each for the one tree that it stands for. -/
theorem parse_eq_ok_iff_derives {tokens : List Token}
    (hend : ∃ last, tokens.getLast? = some last ∧ last.kind = .eof)
    (hproper : ∀ t ∈ tokens, t.Proper) :
    (∀ body, parse tokens = .ok body ↔ Derives .body (front tokens) body) ∧
      ∀ body body' : Body .parsed, Derives .body (front tokens) body → Derives .body (front tokens) body' →
        body = body' := by
  obtain ⟨final, hgetLast, hfinal⟩ := hend
  obtain ⟨init, htokens⟩ := List.getLast?_eq_some_iff.mp hgetLast
  have hd : Delimited Token.Proper tokens := ⟨⟨init, final, htokens, hfinal⟩, hproper⟩
  obtain ⟨last, rest, heq, hlast⟩ :=
    exists_eq_front_append ⟨final, List.mem_of_getLast? hgetLast, hfinal⟩
  have hparse : ∀ body, parse tokens = .ok body ↔ Derives .body (front tokens) body := by
    intro body
    constructor
    · intro h
      rw [heq] at h hd
      exact derives_of_parse (fun _ => ne_of_mem_front) hlast hd h
    · intro h
      rw [heq]
      exact parse_of_derives hlast h
  refine ⟨hparse, fun body body' h h' => ?_⟩
  have hsame := (hparse body).mpr h
  rw [(hparse body').mpr h'] at hsame
  exact (Except.ok.inj hsame).symm

theorem parse_eq_ok_iff_derives_undivided :
    ∃ tokens, (Scan.tokenize {} 0
        "int x = -9223372036854775808; \x7b\x7d write 1 - 2 * x".toList).2 = .ok tokens ∧
      (∃ last, tokens.getLast? = some last ∧ last.kind = .eof) ∧ (∀ t ∈ tokens, t.Proper) ∧
      Derives .body (front tokens)
        [.declare .int "x" (.int Int64.minValue ()) ⟨.kwInt, "", 0, 1, 1, 3⟩,
          .expr (.block [] ()) ⟨.lbrace, "", 0, 1, 31, 1⟩,
          .write false (.binary .sub (.int 1 ()) (.binary .mul (.int 2 ()) (.var "x" ()) ()) ()) ()
            ⟨.kwWrite, "", 0, 1, 34, 5⟩] := by
  have hscan : (Scan.tokenize {} 0
      "int x = -9223372036854775808; \x7b\x7d write 1 - 2 * x".toList).2 =
      .ok [⟨.kwInt, "", 0, 1, 1, 3⟩, ⟨.ident, "x", 0, 1, 5, 1⟩, ⟨.eq, "", 0, 1, 7, 1⟩,
        ⟨.minus, "", 0, 1, 9, 1⟩, ⟨.number, "9223372036854775808", 0, 1, 10, 19⟩,
        ⟨.semi, "", 0, 1, 29, 1⟩, ⟨.lbrace, "", 0, 1, 31, 1⟩, ⟨.rbrace, "", 0, 1, 32, 1⟩,
        ⟨.kwWrite, "", 0, 1, 34, 5⟩, ⟨.number, "1", 0, 1, 40, 1⟩, ⟨.minus, "", 0, 1, 42, 1⟩,
        ⟨.number, "2", 0, 1, 44, 1⟩, ⟨.star, "", 0, 1, 46, 1⟩, ⟨.ident, "x", 0, 1, 48, 1⟩,
        ⟨.eof, "", 0, 1, 49, 0⟩] := by decide +kernel
  have hproper := Scan.proper_of_tokenize hscan
  exact ⟨_, hscan, ⟨_, rfl, rfl⟩, hproper,
    ((parse_eq_ok_iff_derives ⟨_, rfl, rfl⟩ hproper).1 _).mp rfl⟩

end BlockLang.Grammar

import BlockLang.Proofs.Parsing
import BlockLang.Proofs.Rules
import BlockLang.Proofs.Spelling

/-! Every tree that the parser can build has a text. An expression is written with its operands in
parentheses and a body with a semicolon behind every statement, so that neither precedence nor the rules
for missing semicolons matter. Read back, the text is the tree again. -/

namespace BlockLang

open Grammar

/-- The sign between two operands. -/
def BinaryOp.sign : BinaryOp → TokenKind
  | or => .kwOr
  | and => .kwAnd
  | eq => .eqEq
  | neq => .neq
  | lt => .lt
  | lte => .lte
  | gt => .gt
  | gte => .gte
  | add => .plus
  | sub => .minus
  | mul => .star
  | div => .slash
  | rem => .rem

/-- The sign in front of an operand. -/
def UnaryOp.sign : UnaryOp → TokenKind
  | negate => .minus
  | not => .kwNot
  | stringify => .dollar

def Ty.word : Ty → TokenKind
  | int => .kwInt
  | string => .kwString
  | bool => .kwBool
  | unit => .kwUnit

namespace Lexeme

/-- Lexemes between two signs. -/
def enclosed (opening closing : TokenKind) (ls : List Lexeme) : List Lexeme :=
  { kind := opening } :: (ls ++ [{ kind := closing }])

def parenthesized : List Lexeme → List Lexeme := enclosed .lparen .rparen

def braced : List Lexeme → List Lexeme := enclosed .lbrace .rbrace

/-- An integer that is not negative, or the smallest one. -/
def integer (value : Int64) : List Lexeme :=
  if value = Int64.minValue then [{ kind := .minus }, ⟨.number, toString magnitude⟩]
  else [⟨.number, toString value.toNatClampNeg⟩]

end Lexeme

open Lexeme (parenthesized braced)

mutual

def Expr.lexemes : Expr .parsed → List Lexeme
  | .int value _ => Lexeme.integer value
  | .string value _ => [⟨.string, value⟩]
  | .bool value _ => [{ kind := if value then .kwTrue else .kwFalse }]
  | .unit _ => parenthesized []
  | .var name _ => [⟨.ident, name⟩]
  | .assign name value _ => ⟨.ident, name⟩ :: { kind := .eq } :: value.lexemes
  | .unary op operand _ => { kind := op.sign } :: parenthesized operand.lexemes
  | .binary op left right _ =>
    parenthesized left.lexemes ++ { kind := op.sign } :: parenthesized right.lexemes
  | .block body _ => braced (Body.lexemes body)
  | .choice cond body others _ =>
    { kind := .kwIf } :: (cond.lexemes ++ (braced (Body.lexemes body) ++ others.lexemes))
  | .loop cond body _ => { kind := .kwWhile } :: (cond.lexemes ++ braced (Body.lexemes body))

/-- How the later branches of a choice are written. -/
def Branches.lexemes : Branches .parsed → List Lexeme
  | .done => []
  | .otherwise body => { kind := .kwElse } :: braced (Body.lexemes body)
  | .orIf cond body others =>
    { kind := .kwElif } :: (cond.lexemes ++ (braced (Body.lexemes body) ++ others.lexemes))

/-- How a body is written: with a semicolon behind every statement. -/
def Body.lexemes : List (Stmt .parsed) → List Lexeme
  | [] => []
  | s :: rest => s.lexemes ++ { kind := .semi } :: Body.lexemes rest

def Stmt.lexemes : Stmt .parsed → List Lexeme
  | .declare type name init _ =>
    { kind := type.word } :: ⟨.ident, name⟩ :: { kind := .eq } :: init.lexemes
  | .write newline value _ _ => { kind := if newline then .kwWriteln else .kwWrite } :: value.lexemes
  | .leave _ => [{ kind := .kwBreak }]
  | .again _ => [{ kind := .kwContinue }]
  | .expr value _ => value.lexemes

end

mutual

/-- The names of an expression are names, and its integers have a sign only if they are the smallest. -/
def Expr.Expressible : Expr .parsed → Prop
  | .int value _ => 0 ≤ value ∨ value = Int64.minValue
  | .string _ _ | .bool _ _ | .unit _ => True
  | .var name _ => Scan.IsName name
  | .assign name value _ => Scan.IsName name ∧ value.Expressible
  | .unary _ operand _ => operand.Expressible
  | .binary _ left right _ => left.Expressible ∧ right.Expressible
  | .block body _ => Body.Expressible body
  | .choice cond body others _ => cond.Expressible ∧ Body.Expressible body ∧ others.Expressible
  | .loop cond body _ => cond.Expressible ∧ Body.Expressible body

/-- The later branches of a choice are expressible. -/
def Branches.Expressible : Branches .parsed → Prop
  | .done => True
  | .otherwise body => Body.Expressible body
  | .orIf cond body others => cond.Expressible ∧ Body.Expressible body ∧ others.Expressible

def Body.Expressible : List (Stmt .parsed) → Prop
  | [] => True
  | s :: rest => s.Expressible ∧ Body.Expressible rest

def Stmt.Expressible : Stmt .parsed → Prop
  | .declare _ name init _ => Scan.IsName name ∧ init.Expressible
  | .write _ value _ _ => value.Expressible
  | .leave _ | .again _ => True
  | .expr value _ => value.Expressible

end

namespace Lexeme

variable {ls : List Lexeme}

theorem readable_enclosed {opening closing : TokenKind} (hopening : opening ∈ TokenKind.signs)
    (hclosing : closing ∈ TokenKind.signs) (h : ∀ l ∈ ls, l.Readable) :
    ∀ l ∈ enclosed opening closing ls, l.Readable := by
  simp only [enclosed, List.forall_mem_cons, List.forall_mem_append]
  exact ⟨.sign hopening, h, .sign hclosing, List.forall_mem_nil _⟩

theorem readable_parenthesized (h : ∀ l ∈ ls, l.Readable) : ∀ l ∈ parenthesized ls, l.Readable :=
  readable_enclosed (by decide) (by decide) h

theorem readable_braced (h : ∀ l ∈ ls, l.Readable) : ∀ l ∈ braced ls, l.Readable :=
  readable_enclosed (by decide) (by decide) h

theorem readable_integer (value : Int64) : ∀ l ∈ integer value, l.Readable := by
  rw [integer]
  split
  case isTrue =>
    rw [List.forall_mem_cons, List.forall_mem_singleton]
    exact ⟨.sign (by decide), .number (Nat.le_refl _)⟩
  case isFalse =>
    rw [List.forall_mem_singleton]
    exact .number (Nat.le_of_lt value.toNatClampNeg_lt)

end Lexeme

theorem BinaryOp.readable_sign (op : BinaryOp) : Lexeme.Readable { kind := op.sign } := by
  cases op with
  | or | and => exact .word (by decide)
  | _ => exact .sign (by decide)

theorem UnaryOp.readable_sign (op : UnaryOp) : Lexeme.Readable { kind := op.sign } := by
  cases op with
  | not => exact .word (by decide)
  | _ => exact .sign (by decide)

theorem Ty.readable_word (type : Ty) : Lexeme.Readable { kind := type.word } := by
  cases type <;> exact .word (by decide)

open Lexeme (readable_parenthesized readable_braced)

mutual

/-- Every lexeme of an expressible expression can be read back. -/
theorem Expr.readable : ∀ e : Expr .parsed, e.Expressible → ∀ l ∈ e.lexemes, l.Readable
  | .int value _, _ => Lexeme.readable_integer value
  | .string value _, _ => List.forall_mem_singleton.mpr (.string value)
  | .bool value _, _ => by
      rw [Expr.lexemes, List.forall_mem_singleton]
      cases value <;> exact .word (by decide)
  | .unit _, _ => readable_parenthesized (List.forall_mem_nil _)
  | .var _ _, h => List.forall_mem_singleton.mpr (.name h)
  | .assign _ value _, ⟨hname, hvalue⟩ => by
      simp only [Expr.lexemes, List.forall_mem_cons]
      exact ⟨.name hname, .sign (by decide), value.readable hvalue⟩
  | .unary op operand _, h =>
      List.forall_mem_cons.mpr ⟨op.readable_sign, readable_parenthesized (operand.readable h)⟩
  | .binary op left right _, ⟨hleft, hright⟩ => by
      simp only [Expr.lexemes, List.forall_mem_append, List.forall_mem_cons]
      exact ⟨readable_parenthesized (left.readable hleft), op.readable_sign,
        readable_parenthesized (right.readable hright)⟩
  | .block body _, h => readable_braced (Body.readable body h)
  | .choice cond body others _, ⟨hcond, hbody, hothers⟩ => by
      simp only [Expr.lexemes, List.forall_mem_append, List.forall_mem_cons]
      exact ⟨.word (by decide), cond.readable hcond, readable_braced (Body.readable body hbody),
        others.readable hothers⟩
  | .loop cond body _, ⟨hcond, hbody⟩ => by
      simp only [Expr.lexemes, List.forall_mem_append, List.forall_mem_cons]
      exact ⟨.word (by decide), cond.readable hcond, readable_braced (Body.readable body hbody)⟩

theorem Branches.readable : ∀ b : Branches .parsed, b.Expressible → ∀ l ∈ b.lexemes, l.Readable
  | .done, _ => List.forall_mem_nil _
  | .otherwise body, h =>
      List.forall_mem_cons.mpr ⟨.word (by decide), readable_braced (Body.readable body h)⟩
  | .orIf cond body others, ⟨hcond, hbody, hothers⟩ => by
      simp only [Branches.lexemes, List.forall_mem_append, List.forall_mem_cons]
      exact ⟨.word (by decide), cond.readable hcond, readable_braced (Body.readable body hbody),
        others.readable hothers⟩

theorem Body.readable :
    ∀ body : List (Stmt .parsed), Body.Expressible body → ∀ l ∈ Body.lexemes body, l.Readable
  | [], _ => List.forall_mem_nil _
  | s :: rest, ⟨hs, hrest⟩ => by
      simp only [Body.lexemes, List.forall_mem_append, List.forall_mem_cons]
      exact ⟨s.readable hs, .sign (by decide), Body.readable rest hrest⟩

theorem Stmt.readable : ∀ s : Stmt .parsed, s.Expressible → ∀ l ∈ s.lexemes, l.Readable
  | .declare type _ init _, ⟨hname, hinit⟩ => by
      simp only [Stmt.lexemes, List.forall_mem_cons]
      exact ⟨type.readable_word, .name hname, .sign (by decide), init.readable hinit⟩
  | .write newline value _ _, h => by
      rw [Stmt.lexemes, List.forall_mem_cons]
      refine ⟨?_, value.readable h⟩
      cases newline <;> exact .word (by decide)
  | .leave _, _ => List.forall_mem_singleton.mpr (.word (by decide))
  | .again _, _ => List.forall_mem_singleton.mpr (.word (by decide))
  | .expr value _, h => value.readable h

end

/-! ### Phrases -/

section Phrases

variable {ls : List Lexeme} {w : List Token} {e : Expr .parsed}

namespace Lexeme

theorem tokens_cons {l : Lexeme} (h : w.map Token.lexeme = l :: ls) :
    ∃ t u, w = t :: u ∧ t.kind = l.kind ∧ t.text = l.text ∧ u.map Token.lexeme = ls := by
  obtain ⟨t, u, rfl, ht, hu⟩ := List.map_eq_cons_iff.mp h
  exact ⟨t, u, rfl, congrArg kind ht, congrArg text ht, hu⟩

theorem tokens_singleton {l : Lexeme} (h : w.map Token.lexeme = [l]) :
    ∃ t, w = [t] ∧ t.kind = l.kind ∧ t.text = l.text := by
  obtain ⟨t, u, rfl, hkind, htext, hu⟩ := tokens_cons h
  obtain rfl := List.map_eq_nil_iff.mp hu
  exact ⟨t, rfl, hkind, htext⟩

theorem tokens_enclosed {opening closing : TokenKind}
    (h : w.map Token.lexeme = enclosed opening closing ls) :
    ∃ first u last, w = first :: (u ++ [last]) ∧ first.kind = opening ∧ u.map Token.lexeme = ls ∧
      last.kind = closing := by
  obtain ⟨first, v, rfl, hfirst, -, hv⟩ := tokens_cons h
  obtain ⟨u, v, rfl, hu, hv⟩ := List.map_eq_append_iff.mp hv
  obtain ⟨last, rfl, hlast, -⟩ := tokens_singleton hv
  exact ⟨first, u, last, rfl, hfirst, hu, hlast⟩

end Lexeme

namespace Grammar

theorem Derives.loosen {m n : Nat} (hmn : m ≤ n) (hn : n ≤ levels.length)
    (h : Derives (.operation n) w e) : Derives (.operation m) w e := by
  obtain ⟨k, rfl⟩ := Nat.exists_eq_add_of_le hmn
  induction k with
  | zero => exact h
  | succ k ih => exact ih (by omega) (by omega) (.tighter (by omega) h)

theorem Derives.operation_of_operand {level : Nat} (hlevel : level ≤ levels.length)
    (h : Derives .operand w e) : Derives (.operation level) w e :=
  .loosen hlevel (Nat.le_refl _) (.operand h)

theorem Derives.expression_of_operand (h : Derives .operand w e) : Derives .expression w e :=
  .operation (.operation_of_operand (Nat.zero_le _) h)

end Grammar

theorem BinaryOp.joins_sign (op : BinaryOp) : Joins op.level op.sign op := by
  cases op <;> exact ⟨_, rfl, by decide⟩

theorem UnaryOp.sign_mem_leading (op : UnaryOp) : (op.sign, op) ∈ leading := by
  cases op <;> decide

theorem Ty.word_mem_typeWords (type : Ty) : (type.word, type) ∈ typeWords := by
  cases type <;> decide

/-- Wherever they stand, tokens with these lexemes are a phrase for the expression, up to its marks. -/
def Expr.WrittenAs (e : Expr .parsed) (ls : List Lexeme) : Prop :=
  ∀ w, w.map Token.lexeme = ls → ∃ e', Derives .expression w e' ∧ e'.bare = e.bare

/-- The same for the later branches of a choice. -/
def Branches.WrittenAs (b : Branches .parsed) (ls : List Lexeme) : Prop :=
  ∀ w, w.map Token.lexeme = ls → ∃ b', Derives .branches w b' ∧ b'.bare = b.bare

def Body.WrittenAs (body : Body .parsed) (ls : List Lexeme) : Prop :=
  ∀ w, w.map Token.lexeme = ls → ∃ body', Derives .body w body' ∧ Body.bare body' = Body.bare body

def Stmt.WrittenAs (s : Stmt .parsed) (ls : List Lexeme) : Prop :=
  ∀ w, w.map Token.lexeme = ls → ∃ s', Derives .statement w s' ∧ s'.bare = s.bare

theorem Expr.WrittenAs.operand (he : e.WrittenAs ls) (hw : w.map Token.lexeme = parenthesized ls) :
    ∃ e', Derives .operand w e' ∧ e'.bare = e.bare := by
  obtain ⟨opening, u, closing, rfl, hopening, hu, hclosing⟩ := Lexeme.tokens_enclosed hw
  obtain ⟨e', hderives, hbare⟩ := he u hu
  exact ⟨e', .primary (.paren hopening hderives hclosing), hbare⟩

theorem Body.WrittenAs.block {body : Body .parsed} (hbody : Body.WrittenAs body ls)
    (hw : w.map Token.lexeme = braced ls) :
    ∃ body', Derives .block w body' ∧ Body.bare body' = Body.bare body := by
  obtain ⟨opening, u, closing, rfl, hopening, hu, hclosing⟩ := Lexeme.tokens_enclosed hw
  obtain ⟨body', hderives, hbare⟩ := hbody u hu
  exact ⟨body', .block hopening hderives hclosing, hbare⟩

/-- An integer is written as a numeral, and the least one with its sign. -/
theorem Lexeme.integer_writes {value : Int64} (h : 0 ≤ value ∨ value = Int64.minValue) :
    (Expr.int value () : Expr .parsed).WrittenAs (integer value) := by
  intro w hw
  rw [integer] at hw
  split at hw
  case isTrue hvalue =>
    obtain ⟨sign, v, rfl, hsign, -, hv⟩ := tokens_cons hw
    obtain ⟨number, rfl, hnumber, htext⟩ := tokens_singleton hv
    have hderives : Derives .operand [sign, number] (.int Int64.minValue ()) :=
      .least hsign hnumber htext
    exact ⟨_, .expression_of_operand hderives, by rw [hvalue]⟩
  case isFalse hvalue =>
    obtain ⟨number, rfl, hnumber, htext⟩ := tokens_singleton hw
    have hderives : Derives .primary [number] (.int (Int64.ofNat value.toNatClampNeg) ()) :=
      .number hnumber htext value.toNatClampNeg_lt
    refine ⟨_, .expression_of_operand (.primary hderives), ?_⟩
    rw [Int64.ofNat_toNatClampNeg value (h.resolve_right hvalue)]

open Lexeme (tokens_cons tokens_singleton tokens_enclosed)

/-- A branch of a choice, with the word in front of it and the branches behind it. -/
theorem Branches.WrittenAs.arm {cond : Expr .parsed} {body : Body .parsed} {others : Branches .parsed}
    {us vs ws : List Lexeme} {kind : TokenKind} (hcond : cond.WrittenAs us)
    (hbody : Body.WrittenAs body vs) (hothers : others.WrittenAs ws)
    (hw : w.map Token.lexeme = { kind } :: (us ++ (braced vs ++ ws))) :
    ∃ word u v x cond' body' others', w = word :: (u ++ (v ++ x)) ∧ word.kind = kind ∧
      (Derives .expression u cond' ∧ cond'.bare = cond.bare) ∧
      (Derives .block v body' ∧ Body.bare body' = Body.bare body) ∧
      Derives .branches x others' ∧ others'.bare = others.bare := by
  obtain ⟨word, w, rfl, hword, -, hw⟩ := tokens_cons hw
  obtain ⟨u, w, rfl, hu, hw⟩ := List.map_eq_append_iff.mp hw
  obtain ⟨v, x, rfl, hv, hx⟩ := List.map_eq_append_iff.mp hw
  obtain ⟨cond', hcond'⟩ := hcond u hu
  obtain ⟨body', hbody'⟩ := hbody.block hv
  obtain ⟨others', hothers'⟩ := hothers x hx
  exact ⟨word, u, v, x, cond', body', others', rfl, hword, hcond', hbody', hothers'⟩

mutual

/-- An expression can be read in its lexemes. Operands are in parentheses, so they can stand at any level. -/
theorem Expr.writtenAs_lexemes : ∀ e : Expr .parsed, e.Expressible → e.WrittenAs e.lexemes
  | .int _ _, h => Lexeme.integer_writes h
  | .string value _, _ => by
      intro w hw
      obtain ⟨t, rfl, hkind, htext⟩ := tokens_singleton hw
      refine ⟨_, .expression_of_operand (.primary (.string hkind)), ?_⟩
      rw [htext]
  | .bool value _, _ => by
      intro w hw
      obtain ⟨t, rfl, hkind, -⟩ := tokens_singleton hw
      have hword : (t.kind, value) ∈ truthWords := by
        rw [hkind]
        cases value <;> decide
      exact ⟨_, .expression_of_operand (.primary (.truth hword)), rfl⟩
  | .unit _, _ => by
      intro w hw
      obtain ⟨opening, u, closing, rfl, hopening, hu, hclosing⟩ := tokens_enclosed hw
      obtain rfl := List.map_eq_nil_iff.mp hu
      exact ⟨_, .expression_of_operand (.primary (.unit hopening hclosing)), rfl⟩
  | .var name _, _ => by
      intro w hw
      obtain ⟨t, rfl, hkind, htext⟩ := tokens_singleton hw
      refine ⟨_, .expression_of_operand (.primary (.var hkind)), ?_⟩
      rw [htext]
  | .assign name value _, ⟨_, hvalue⟩ => by
      intro w hw
      obtain ⟨target, w, rfl, htarget, htext, hw⟩ := tokens_cons hw
      obtain ⟨sign, w, rfl, hsign, -, hw⟩ := tokens_cons hw
      obtain ⟨value', hvalue', hbare⟩ := value.writtenAs_lexemes hvalue w hw
      refine ⟨_, .assign htarget hsign hvalue', ?_⟩
      rw [Expr.bare, Expr.bare, hbare, htext]
  | .unary op operand _, h => by
      intro w hw
      obtain ⟨sign, w, rfl, hsign, -, hw⟩ := tokens_cons hw
      obtain ⟨operand', hoperand', hbare⟩ := (operand.writtenAs_lexemes h).operand hw
      have hop : (sign.kind, op) ∈ leading := hsign ▸ op.sign_mem_leading
      refine ⟨_, .expression_of_operand (.unary hop hoperand'), ?_⟩
      rw [Expr.bare, Expr.bare, hbare]
  | .binary op left right _, ⟨hleft, hright⟩ => by
      intro w hw
      obtain ⟨u, w, rfl, hu, hw⟩ := List.map_eq_append_iff.mp hw
      obtain ⟨sign, v, rfl, hsign, -, hv⟩ := tokens_cons hw
      obtain ⟨left', hleft', hbareLeft⟩ := (left.writtenAs_lexemes hleft).operand hu
      obtain ⟨right', hright', hbareRight⟩ := (right.writtenAs_lexemes hright).operand hv
      have hop : Joins op.level sign.kind op := hsign ▸ op.joins_sign
      have hlevel : op.level < levels.length := by cases op <;> decide
      have hderives : Derives (.operation op.level) (u ++ sign :: v) (.binary op left' right' ()) :=
        .binary hop (.operation_of_operand (Nat.le_of_lt hlevel) hleft')
          (.operation_of_operand hlevel hright')
      refine ⟨_, .operation (.loosen (Nat.zero_le _) (Nat.le_of_lt hlevel) hderives), ?_⟩
      rw [Expr.bare, Expr.bare, hbareLeft, hbareRight]
  | .block body _, h => by
      intro w hw
      obtain ⟨body', hbody', hbare⟩ := (Body.writtenAs_lexemes body h).block hw
      refine ⟨_, .expression_of_operand (.primary (.braced hbody')), ?_⟩
      rw [Expr.bare, Expr.bare, hbare]
  | .choice cond body others _, ⟨hcond, hbody, hothers⟩ => by
      intro w hw
      obtain ⟨word, u, v, x, cond', body', others', rfl, hword, ⟨hcond', hbareCond⟩, ⟨hbody', hbareBody⟩,
        hothers', hbareOthers⟩ := Branches.WrittenAs.arm (cond.writtenAs_lexemes hcond)
          (Body.writtenAs_lexemes body hbody) (others.writtenAs_lexemes hothers) hw
      refine ⟨_, .expression_of_operand (.primary (.choice hword hcond' hbody' hothers')), ?_⟩
      rw [Expr.bare, Expr.bare, hbareCond, hbareBody, hbareOthers]
  | .loop cond body _, ⟨hcond, hbody⟩ => by
      intro w hw
      obtain ⟨word, w, rfl, hword, -, hw⟩ := tokens_cons hw
      obtain ⟨u, v, rfl, hu, hv⟩ := List.map_eq_append_iff.mp hw
      obtain ⟨cond', hcond', hbareCond⟩ := cond.writtenAs_lexemes hcond u hu
      obtain ⟨body', hbody', hbareBody⟩ := (Body.writtenAs_lexemes body hbody).block hv
      refine ⟨_, .expression_of_operand (.primary (.loop hword hcond' hbody')), ?_⟩
      rw [Expr.bare, Expr.bare, hbareCond, hbareBody]

theorem Branches.writtenAs_lexemes : ∀ b : Branches .parsed, b.Expressible → b.WrittenAs b.lexemes
  | .done, _ => by
      intro w hw
      obtain rfl := List.map_eq_nil_iff.mp hw
      exact ⟨_, .done, rfl⟩
  | .otherwise body, h => by
      intro w hw
      obtain ⟨word, w, rfl, hword, -, hw⟩ := tokens_cons hw
      obtain ⟨body', hbody', hbare⟩ := (Body.writtenAs_lexemes body h).block hw
      refine ⟨_, .otherwise hword hbody', ?_⟩
      rw [Branches.bare, Branches.bare, hbare]
  | .orIf cond body others, ⟨hcond, hbody, hothers⟩ => by
      intro w hw
      obtain ⟨word, u, v, x, cond', body', others', rfl, hword, ⟨hcond', hbareCond⟩, ⟨hbody', hbareBody⟩,
        hothers', hbareOthers⟩ := Branches.WrittenAs.arm (cond.writtenAs_lexemes hcond)
          (Body.writtenAs_lexemes body hbody) (others.writtenAs_lexemes hothers) hw
      refine ⟨_, .orIf hword hcond' hbody' hothers', ?_⟩
      rw [Branches.bare, Branches.bare, hbareCond, hbareBody, hbareOthers]

/-- A body can be read in its lexemes, with a semicolon behind every statement. -/
theorem Body.writtenAs_lexemes :
    ∀ body : List (Stmt .parsed), Body.Expressible body → Body.WrittenAs body (Body.lexemes body)
  | [], _ => by
      intro w hw
      obtain rfl := List.map_eq_nil_iff.mp hw
      exact ⟨_, .empty, rfl⟩
  | s :: rest, ⟨hs, hrest⟩ => by
      intro w hw
      obtain ⟨u, w, rfl, hu, hw⟩ := List.map_eq_append_iff.mp hw
      obtain ⟨semi, v, rfl, hsemi, -, hv⟩ := tokens_cons hw
      obtain ⟨s', hs', hbare⟩ := s.writtenAs_lexemes hs u hu
      obtain ⟨rest', hrest', hbareRest⟩ := Body.writtenAs_lexemes rest hrest v hv
      refine ⟨_, .divided hs' hsemi hrest', ?_⟩
      rw [Body.bare, Body.bare, hbare, hbareRest]

/-- A statement can be read in its lexemes, the first of which carries its mark. -/
theorem Stmt.writtenAs_lexemes : ∀ s : Stmt .parsed, s.Expressible → s.WrittenAs s.lexemes
  | .declare type name init _, ⟨_, hinit⟩ => by
      intro w hw
      obtain ⟨word, w, rfl, hword, -, hw⟩ := tokens_cons hw
      obtain ⟨target, w, rfl, htarget, htext, hw⟩ := tokens_cons hw
      obtain ⟨sign, w, rfl, hsign, -, hw⟩ := tokens_cons hw
      obtain ⟨init', hinit', hbare⟩ := init.writtenAs_lexemes hinit w hw
      have htype : (word.kind, type) ∈ typeWords := hword ▸ type.word_mem_typeWords
      refine ⟨_, .declare htype htarget hsign hinit', ?_⟩
      rw [Stmt.bare, Stmt.bare, hbare, htext]
  | .write newline value _ _, h => by
      intro w hw
      obtain ⟨word, w, rfl, hword, -, hw⟩ := tokens_cons hw
      obtain ⟨value', hvalue', hbare⟩ := value.writtenAs_lexemes h w hw
      have hkind : (word.kind, newline) ∈ writeWords := by
        rw [hword]
        cases newline <;> decide
      refine ⟨_, .write hkind hvalue', ?_⟩
      rw [Stmt.bare, Stmt.bare, hbare]
  | .leave _, _ => by
      intro w hw
      obtain ⟨word, rfl, hword, -⟩ := tokens_singleton hw
      exact ⟨_, .leave hword, rfl⟩
  | .again _, _ => by
      intro w hw
      obtain ⟨word, rfl, hword, -⟩ := tokens_singleton hw
      exact ⟨_, .again hword, rfl⟩
  | .expr value _, h => by
      intro w hw
      obtain ⟨value', hvalue', hbare⟩ := value.writtenAs_lexemes h w hw
      obtain ⟨first, w, rfl⟩ := List.exists_cons_of_ne_nil (hvalue'.ne_nil trivial)
      refine ⟨_, .expr hvalue', ?_⟩
      rw [Stmt.bare, Stmt.bare, hbare]

end

end Phrases

namespace Body

/-- The text of a body, with no blank that could be left out. -/
def render (body : Body .parsed) : List Char := Lexeme.write (lexemes body)

/-- Every expressible tree has a text. With the initial features, each text that holds its lexemes is read
without a warning and parsed as the tree, up to the marks of its statements: it does not matter how the
lexemes are laid out, as long as none run together. -/
theorem parse_layout {settings : Settings} (hfeatures : settings.feature = ({} : Settings).feature)
    (file : Int) {body : Body .parsed} (hbody : Expressible body) :
    Lexeme.Layout (lexemes body) (render body) ∧
      ∀ text, Lexeme.Layout (lexemes body) text →
        ∃ tokens body', Scan.tokenize settings file text = ([], .ok tokens) ∧
          parse tokens = .ok body' ∧ bare body' = bare body := by
  refine ⟨Lexeme.layout_write _, fun text htext => ?_⟩
  obtain ⟨tokens, last, htokenize, hlexemes, hlast⟩ :=
    Scan.tokenize_layout hfeatures htext (readable body hbody)
  obtain ⟨body', hderives, hbare⟩ := writtenAs_lexemes body hbody tokens hlexemes
  exact ⟨_, body', htokenize, parse_of_derives hlast hderives, hbare⟩

/-- The smallest integer behind a sign, escapes, and a sign behind a brace and its semicolon. -/
theorem parse_layout_adjacent :
    let body : Body .parsed :=
      [.declare .int "_x" (.unary .negate (.int Int64.minValue ()) ()) {},
       .expr (.block [.write true (.string "\"\\\n\t//é" ()) () {}] ()) {},
       .expr (.unary .negate (.binary .eq (.var "_x" ()) (.int 1 ()) ()) ()) {},
       .expr (.choice (.bool true ()) [.leave {}] (.orIf (.unit ()) [.again {}] (.otherwise [])) ()) {}]
    let text := "int _x=-(-9223372036854775808);\x7bwriteln\"\\\"\\\\\\n\\t//é\";\x7d;-((_x)==(1));" ++
      "if true\x7bbreak;\x7delif()\x7bcontinue;\x7delse\x7b\x7d;"
    Expressible body ∧ render body = text.toList ∧
      ∃ tokens body', Scan.tokenize {} 0 text.toList = ([], .ok tokens) ∧ parse tokens = .ok body' ∧
        bare body' = bare body := by
  intro body text
  have hname : Scan.IsName "_x" := by decide +kernel
  have hbody : Expressible body :=
    ⟨⟨hname, .inr rfl⟩, ⟨trivial, trivial⟩, ⟨hname, .inl (by decide)⟩,
      ⟨trivial, ⟨trivial, trivial⟩, trivial, ⟨trivial, trivial⟩, trivial⟩, trivial⟩
  have htext : render body = text.toList := by decide +kernel
  obtain ⟨hlayout, hparse⟩ := parse_layout (show ({} : Settings).feature = _ from rfl) 0 hbody
  exact ⟨hbody, htext, hparse _ (htext ▸ hlayout)⟩

end Body

end BlockLang

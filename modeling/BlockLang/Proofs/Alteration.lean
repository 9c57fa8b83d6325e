import BlockLang.Proofs.Descent
import BlockLang.Proofs.Substitution

/-! Other numbers in the same places. A phrase of the grammar stays one if numbers in it are altered, and
its tree is altered in the same places; from there on the stages of the compiler only pass the constants
on. The number 2^63 is special: it is no integer, but its negation is, so it stands only right behind a
minus sign in front of an operand, and then the sign and the number are one constant. Which minus signs
stand in front of an operand, and not between two, can be told from the token before them. -/

namespace BlockLang

/-- Whether a token of a kind can be the last one of an operand. A minus sign behind such a token stands
between two operands, and any other one in front of an operand. -/
def TokenKind.endsOperand (kind : TokenKind) : Bool :=
  kind ∈ [.ident, .number, .string, .kwTrue, .kwFalse, .rparen, .rbrace]

namespace Grammar

/-- Whether an operand can end behind some tokens, if it is known whether one can end in front of them. -/
def closed (before : Bool) (w : List Token) : Bool := w.foldl (fun _ t => t.kind.endsOperand) before

variable {before : Bool} {t : Token} {u v w x : List Token}

theorem closed_append : closed before (u ++ v) = closed (closed before u) v := List.foldl_append

theorem closed_cons : closed before (t :: w) = closed t.kind.endsOperand w := rfl

theorem closed_of_false (h : closed false w = true) : closed before w = true := by
  cases w with
  | nil => cases h
  | cons t w => exact h

theorem closed_cons_of_false (h : closed false w = true) : closed before (t :: w) = true := by
  rw [closed_cons]
  exact closed_of_false h

theorem joins_kind {level : Nat} {sign : TokenKind} {op : BinaryOp} (h : Joins level sign op) :
    sign ≠ .number ∧ sign.endsOperand = false := by
  have htable : ∀ row ∈ levels, ∀ entry ∈ row, entry.1 ≠ .number ∧ entry.1.endsOperand = false := by
    decide
  obtain ⟨row, hrow, hmem⟩ := h
  exact htable row (List.mem_of_getElem? hrow) _ hmem

theorem leading_kind {sign : TokenKind} {op : UnaryOp} (h : (sign, op) ∈ leading) :
    sign ≠ .number ∧ sign.endsOperand = false := by
  have htable : ∀ entry ∈ leading, entry.1 ≠ .number ∧ entry.1.endsOperand = false := by decide
  exact htable _ h

theorem truth_kind {word : TokenKind} {value : Bool} (h : (word, value) ∈ truthWords) :
    word ≠ .number ∧ word ≠ .minus ∧ word.endsOperand = true := by
  have htable : ∀ entry ∈ truthWords,
      entry.1 ≠ .number ∧ entry.1 ≠ .minus ∧ entry.1.endsOperand = true := by decide
  exact htable _ h

theorem type_kind {word : TokenKind} {type : Ty} (h : (word, type) ∈ typeWords) :
    word ≠ .number ∧ word ≠ .minus := by
  have htable : ∀ entry ∈ typeWords, entry.1 ≠ .number ∧ entry.1 ≠ .minus := by decide
  exact htable _ h

theorem write_kind {word : TokenKind} {newline : Bool} (h : (word, newline) ∈ writeWords) :
    word ≠ .number ∧ word ≠ .minus ∧ word.endsOperand = false := by
  have htable : ∀ entry ∈ writeWords,
      entry.1 ≠ .number ∧ entry.1 ≠ .minus ∧ entry.1.endsOperand = false := by decide
  exact htable _ h

theorem ne_minus_of_not_joins {kind : TokenKind} (h : ∀ level op, ¬Joins level kind op) :
    kind ≠ .minus := by
  rintro rfl
  exact h 3 .sub ⟨_, rfl, by decide⟩

/-- The phrases of a category that stand for values are closed, and so are those of which the last part
is a block. -/
def Category.Closes : Category → List Token → Prop
  | .expression, w | .operation _, w | .operand, w | .primary, w | .block, w => closed false w = true
  | .branches, w => closed true w = true
  | .body, _ | .statement, _ => True

/-- A phrase that stands for a value ends an operand, so that a sign behind it is an operator. -/
theorem Derives.closes {c : Category} {tree : c.Tree} (h : Derives c w tree) : c.Closes w := by
  induction h with
  | assign _ _ _ ih => exact closed_cons_of_false (closed_cons_of_false ih)
  | operation _ ih => exact ih
  | binary _ _ _ _ ih =>
      show closed false _ = true
      rw [closed_append]
      exact closed_cons_of_false ih
  | tighter _ _ ih => exact ih
  | operand _ ih => exact ih
  | unary _ _ ih => exact closed_cons_of_false ih
  | least _ hnumber _ =>
      show TokenKind.endsOperand _ = true
      rw [hnumber]
      rfl
  | primary _ ih => exact ih
  | number ht _ _ | string ht | var ht =>
      show TokenKind.endsOperand _ = true
      rw [ht]
      rfl
  | truth ht => exact (truth_kind ht).2.2
  | unit _ hclosing =>
      show TokenKind.endsOperand _ = true
      rw [hclosing]
      rfl
  | paren _ _ hclosing _ =>
      show closed _ (_ ++ [_]) = true
      rw [closed_append, closed_cons, hclosing]
      rfl
  | braced _ ih => exact ih
  | choice _ _ _ _ _ ihv ihw =>
      show closed _ (_ ++ (_ ++ _)) = true
      rw [closed_append, closed_append, closed_of_false ihv]
      exact ihw
  | loop _ _ _ _ ihv =>
      show closed _ (_ ++ _) = true
      rw [closed_append]
      exact closed_of_false ihv
  | done => rfl
  | otherwise _ _ ih => exact closed_cons_of_false ih
  | orIf _ _ _ _ _ ihv ihw =>
      show closed _ (_ ++ (_ ++ _)) = true
      rw [closed_append, closed_append, closed_of_false ihv]
      exact ihw
  | block _ _ hclosing _ =>
      show closed _ (_ ++ [_]) = true
      rw [closed_append, closed_cons, hclosing]
      rfl
  | empty | last | divided | undivided | declare | write | leave | again | expr => trivial

/-- A block begins with a brace, whatever follows it. -/
theorem Derives.append_head {body : Body .parsed} (h : Derives .block w body) (rest : List Token) :
    ∀ t ∈ (w ++ rest).head?, t.kind ≠ .number ∧ t.kind ≠ .minus := by
  cases h with
  | block hopening =>
      rintro t ⟨⟩
      rw [hopening]
      decide

theorem Derives.block_head {body : Body .parsed} (h : Derives .block w body) :
    ∀ t ∈ w.head?, t.kind ≠ .number ∧ t.kind ≠ .minus := by
  have hhead := h.append_head []
  rwa [List.append_nil] at hhead

/-- What follows the first body of a choice begins with a word of its own. -/
theorem Derives.branches_head {others : Branches .parsed} (h : Derives .branches w others) :
    ∀ t ∈ w.head?, t.kind ≠ .number ∧ t.kind ≠ .minus := by
  cases h with
  | done =>
      intro t ht
      cases ht
  | otherwise hword | orIf hword =>
      rintro t ⟨⟩
      rw [hword]
      decide

/-- An operand that begins with a number is that number. -/
theorem Derives.operand_number {e : Expr .parsed} (h : Derives .operand (t :: w) e)
    (ht : t.kind = .number) :
    w = [] ∧ ∃ n < magnitude, t.text = toString n ∧ e = .int (Int64.ofNat n) () := by
  cases h with
  | unary hsign => exact absurd ht (leading_kind hsign).1
  | least hsign =>
      rw [ht] at hsign
      cases hsign
  | primary h =>
      cases h with
      | number _ htext hn => exact ⟨rfl, _, hn, htext, rfl⟩
      | string hkind | var hkind | unit hkind | paren hkind | choice hkind | loop hkind =>
          rw [ht] at hkind
          cases hkind
      | truth hkind =>
          rw [ht] at hkind
          simp [truthWords] at hkind
      | braced h => exact absurd ht (h.block_head t rfl).1

/-! ### Other numbers in the same places -/

/-- Tokens that are the same but for a number of places, where the ones have the number `n` and the
others have `m`: anywhere, or only behind a minus sign that stands in front of an operand. -/
inductive Alters (signed : Bool) (n m : Nat) : Bool → Nat → List Token → List Token → Prop where
  | nil {before : Bool} : Alters signed n m before 0 [] []
  | keep {before : Bool} {k : Nat} {w x : List Token} (t : Token) :
      Alters signed n m t.kind.endsOperand k w x → Alters signed n m before k (t :: w) (t :: x)
  | bare {before : Bool} {k : Nat} {t : Token} {w x : List Token} :
      signed = false → t.kind = .number → t.text = toString n → Alters signed n m true k w x →
      Alters signed n m before (k + 1) (t :: w) ({ t with text := toString m } :: x)
  | pair {k : Nat} {sign t : Token} {w x : List Token} :
      signed = true → sign.kind = .minus → t.kind = .number → t.text = toString n →
      Alters signed n m true k w x →
      Alters signed n m false (k + 1) (sign :: t :: w) (sign :: { t with text := toString m } :: x)

namespace Alters

variable {signed : Bool} {n m k i j : Nat} {y z : List Token} {kind : TokenKind}

theorem refl (before : Bool) (w : List Token) : Alters signed n m before 0 w w := by
  induction w generalizing before with
  | nil => exact .nil
  | cons t w ih => exact .keep t (ih _)

/-- Altered texts in a row are an altered text, as long as the second is read behind the last token of the first.
-/
theorem append (h : Alters signed n m before i u y) (h' : Alters signed n m (closed before u) j v z) :
    Alters signed n m before (i + j) (u ++ v) (y ++ z) := by
  induction h with
  | nil =>
      rw [Nat.zero_add]
      exact h'
  | keep t _ ih => exact .keep t (ih h')
  | bare hsigned ht htext _ ih =>
      rw [closed_cons, ht] at h'
      rw [Nat.add_right_comm]
      exact .bare hsigned ht htext (ih h')
  | pair hsigned hsign ht htext _ ih =>
      rw [closed_cons, closed_cons, ht] at h'
      rw [Nat.add_right_comm]
      exact .pair hsigned hsign ht htext (ih h')

theorem nil_inv (h : Alters signed n m before k [] x) : k = 0 ∧ x = [] := by
  cases h with
  | nil => exact ⟨rfl, rfl⟩

/-- A single token stays, or is a number that is altered. -/
theorem single_inv (h : Alters signed n m before k [t] x) :
    k = 0 ∧ x = [t] ∨
      signed = false ∧ t.text = toString n ∧ k = 1 ∧ x = [{ t with text := toString m }] := by
  cases h with
  | keep _ h =>
      obtain ⟨rfl, rfl⟩ := h.nil_inv
      exact .inl ⟨rfl, rfl⟩
  | bare hsigned _ htext h =>
      obtain ⟨rfl, rfl⟩ := h.nil_inv
      exact .inr ⟨hsigned, htext, rfl, rfl⟩

/-- A token that is no number stays, unless it is a minus sign in front of a number. -/
theorem cons_inv (h : Alters signed n m before k (t :: w) x) (hnumber : t.kind ≠ .number)
    (hminus : t.kind = .minus → before = true) :
    ∃ y, x = t :: y ∧ Alters signed n m t.kind.endsOperand k w y := by
  cases h with
  | keep _ h => exact ⟨_, rfl, h⟩
  | bare _ ht => exact absurd ht hnumber
  | pair _ hsign => exact absurd (hminus hsign) Bool.false_ne_true

/-- A token of a certain kind stays. -/
theorem cons_kind_inv (h : Alters signed n m before k (t :: w) x) (ht : t.kind = kind)
    (hnumber : kind ≠ .number) (hminus : kind ≠ .minus) :
    ∃ y, x = t :: y ∧ Alters signed n m kind.endsOperand k w y := by
  subst ht
  exact h.cons_inv hnumber fun h => absurd h hminus

theorem head_inv (h : Alters signed n m before k (t :: w) x) :
    ∃ s y, x = s :: y ∧ s.kind = t.kind := by
  cases h with
  | keep _ h => exact ⟨t, _, rfl, rfl⟩
  | bare => exact ⟨_, _, rfl, rfl⟩
  | pair => exact ⟨_, _, rfl, rfl⟩

/-- Only a minus sign at the beginning depends on what is in front. -/
theorem change (h : Alters signed n m before k w x) (hhead : ∀ t ∈ w.head?, t.kind ≠ .minus)
    (after : Bool) : Alters signed n m after k w x := by
  cases h with
  | nil => exact .nil
  | keep t h => exact .keep t h
  | bare hsigned ht htext h => exact .bare hsigned ht htext h
  | pair _ hsign => exact absurd hsign (hhead _ rfl)

/-- An altered text divides where the text does. A sign and its number are never parted, since the second part does
not begin with a number. -/
theorem append_inv (h : Alters signed n m before k (u ++ v) x)
    (hhead : ∀ t ∈ v.head?, t.kind ≠ .number) :
    ∃ i j y z, k = i + j ∧ x = y ++ z ∧ Alters signed n m before i u y ∧
      Alters signed n m (closed before u) j v z := by
  generalize huv : u ++ v = w at h
  induction h generalizing u with
  | nil =>
      obtain ⟨rfl, rfl⟩ := List.append_eq_nil_iff.mp huv
      exact ⟨0, 0, [], [], rfl, rfl, .nil, .nil⟩
  | @keep before k w x t h ih =>
      cases u with
      | nil =>
          obtain rfl : v = t :: w := huv
          exact ⟨0, k, [], t :: x, (Nat.zero_add k).symm, rfl, .nil, .keep t h⟩
      | cons s u =>
          cases huv
          obtain ⟨i, j, y, z, rfl, rfl, hy, hz⟩ := ih rfl
          exact ⟨i, j, t :: y, z, rfl, rfl, .keep t hy, hz⟩
  | @bare before k t w x hsigned ht htext h ih =>
      cases u with
      | nil =>
          obtain rfl : v = t :: w := huv
          exact absurd ht (hhead t rfl)
      | cons s u =>
          cases huv
          obtain ⟨i, j, y, z, rfl, rfl, hy, hz⟩ := ih rfl
          refine ⟨i + 1, j, _ :: y, z, Nat.add_right_comm i j 1, rfl, .bare hsigned ht htext hy, ?_⟩
          rwa [closed_cons, ht]
  | @pair k sign t w x hsigned hsign ht htext h ih =>
      cases u with
      | nil =>
          obtain rfl : v = sign :: t :: w := huv
          exact ⟨0, k + 1, [], _, (Nat.zero_add _).symm, rfl, .nil, .pair hsigned hsign ht htext h⟩
      | cons s u =>
          cases u with
          | nil =>
              cases huv
              exact absurd ht (hhead t rfl)
          | cons s' u =>
              cases huv
              obtain ⟨i, j, y, z, rfl, rfl, hy, hz⟩ := ih rfl
              refine ⟨i + 1, j, _ :: _ :: y, z, Nat.add_right_comm i j 1, rfl,
                .pair hsigned hsign ht htext hy, ?_⟩
              rwa [closed_cons, closed_cons, ht]

/-- If the second part begins with a token that is neither a number nor a minus sign, each part can be
looked at by itself. -/
theorem parts (h : Alters signed n m before k (u ++ v) x)
    (hhead : ∀ t ∈ v.head?, t.kind ≠ .number ∧ t.kind ≠ .minus) :
    ∃ i j y z, k = i + j ∧ x = y ++ z ∧ Alters signed n m before i u y ∧ Alters signed n m false j v z := by
  obtain ⟨i, j, y, z, hk, hx, hy, hz⟩ := h.append_inv fun t ht => (hhead t ht).1
  exact ⟨i, j, y, z, hk, hx, hy, hz.change (fun t ht => (hhead t ht).2) false⟩

theorem concat_inv (h : Alters signed n m before k (w ++ [t]) x) (ht : t.kind = kind)
    (hnumber : kind ≠ .number) (hminus : kind ≠ .minus) :
    ∃ y, x = y ++ [t] ∧ Alters signed n m before k w y := by
  obtain ⟨i, j, y, z, rfl, rfl, hy, hz⟩ := h.parts <| by
    rintro s ⟨⟩
    rw [ht]
    exact ⟨hnumber, hminus⟩
  obtain ⟨z', rfl, hz'⟩ := hz.cons_kind_inv ht hnumber hminus
  obtain ⟨rfl, rfl⟩ := hz'.nil_inv
  exact ⟨y, rfl, hy⟩

end Alters

/-- The number that a literal may stand for: 2^63 only behind a minus sign. -/
def Fits (signed : Bool) (n : Nat) : Prop := n < magnitude ∨ signed = true ∧ n = magnitude

theorem Fits.le {signed : Bool} {n : Nat} (h : Fits signed n) : n ≤ magnitude := by
  obtain h | ⟨-, rfl⟩ := h
  · exact Nat.le_of_lt h
  · exact Nat.le_refl _

end Grammar

open Grammar

/-- What a literal stands for, or a literal with the minus sign in front of it. -/
def Constant.numeral (signed : Bool) (n : Nat) : Constant :=
  if signed then if n < magnitude then .negated (Int64.ofNat n) else .literal Int64.minValue
  else .literal (Int64.ofNat n)

theorem Constant.numeral_bare (n : Nat) : numeral false n = .literal (Int64.ofNat n) := if_neg nofun

theorem Constant.numeral_negated {n : Nat} (h : n < magnitude) :
    numeral true n = .negated (Int64.ofNat n) := by
  rw [numeral, if_pos rfl, if_pos h]

theorem Constant.numeral_least : numeral true magnitude = .literal Int64.minValue := by
  rw [numeral, if_pos rfl, if_neg (Nat.lt_irrefl _)]

namespace Grammar

variable {signed : Bool} {n m k : Nat} {t : Token} {w x : List Token}

/-- Trees of a category that are the same but for a number of places, and for the marks of statements. -/
def Category.Swapped (a b : Constant) : (c : Category) → Nat → c.Tree → c.Tree → Prop
  | .expression, k, e, e' | .operation _, k, e, e' | .operand, k, e, e' | .primary, k, e, e' =>
      Swaps (fun _ _ => True) a.parsed b.parsed .expr k e e'
  | .branches, k, others, others' => Swaps (fun _ _ => True) a.parsed b.parsed .branches k others others'
  | .block, k, stmts, stmts' | .body, k, stmts, stmts' =>
      Swaps (fun _ _ => True) a.parsed b.parsed .body k stmts stmts'
  | .statement, k, s, s' => Swaps (fun _ _ => True) a.parsed b.parsed .stmt k s s'

theorem derives_bare (ht : t.kind = .number) (htext : t.text = toString n) (hn : Fits false n) :
    Derives .primary [t] (Constant.numeral false n).parsed := by
  rw [Constant.numeral_bare]
  obtain hn | ⟨h, -⟩ := hn
  · exact .number ht htext hn
  · cases h

theorem derives_pair {sign : Token} (hsign : sign.kind = .minus) (ht : t.kind = .number)
    (htext : t.text = toString n) (hn : Fits true n) :
    Derives .operand [sign, t] (Constant.numeral true n).parsed := by
  obtain hn | ⟨-, rfl⟩ := hn
  · rw [Constant.numeral_negated hn]
    exact .unary (by rw [hsign]; decide) (.primary (.number ht htext hn))
  · rw [Constant.numeral_least]
    exact .least hsign ht htext

/-- Wherever numbers are altered in a phrase of a category, it is still such a phrase, and its tree is
altered in the same places. -/
def Alterable (signed : Bool) (n m : Nat) (c : Category) (w : List Token) (tree : c.Tree) : Prop :=
  ∀ (k : Nat) (x : List Token), Alters signed n m false k w x →
    ∃ tree', Derives c x tree' ∧ c.Swapped (.numeral signed n) (.numeral signed m) k tree tree'

namespace Alterable

variable {u v rest : List Token} {word name sign opening closing : Token} {e init value cond : Expr .parsed}
  {body : Body .parsed} {others : Branches .parsed} {s : Stmt .parsed}

/-- A token that is neither a number nor a minus sign. -/
theorem single {c : Category} {tree : c.Tree} (hnumber : t.kind ≠ .number) (hminus : t.kind ≠ .minus)
    (h : Derives c [t] tree) (hsame : c.Swapped (.numeral signed n) (.numeral signed m) 0 tree tree) :
    Alterable signed n m c [t] tree := by
  intro k x hx
  obtain ⟨y, rfl, hy⟩ := hx.cons_kind_inv rfl hnumber hminus
  obtain ⟨rfl, rfl⟩ := hy.nil_inv
  exact ⟨tree, h, hsame⟩

theorem nothing {c : Category} {tree : c.Tree} (h : Derives c [] tree)
    (hsame : c.Swapped (.numeral signed n) (.numeral signed m) 0 tree tree) :
    Alterable signed n m c [] tree := by
  intro k x hx
  obtain ⟨rfl, rfl⟩ := hx.nil_inv
  exact ⟨tree, h, hsame⟩

/-- A phrase of one category that is, with all its tokens, a phrase of another one. -/
theorem whole {c : Category} {tree : c.Tree} (h : Alterable signed n m c w tree) (c' : Category)
    (f : c.Tree → c'.Tree)
    (hderives : ∀ x tree', Derives c x tree' → Derives c' x (f tree'))
    (hswapped : ∀ k tree', c.Swapped (.numeral signed n) (.numeral signed m) k tree tree' →
      c'.Swapped (.numeral signed n) (.numeral signed m) k (f tree) (f tree')) :
    Alterable signed n m c' w (f tree) := by
  intro k x hx
  obtain ⟨tree', htree, hsame⟩ := h k x hx
  exact ⟨f tree', hderives x tree' htree, hswapped k tree' hsame⟩

theorem assign (hname : name.kind = .ident) (hsign : sign.kind = .eq)
    (h : Alterable signed n m .expression w e) :
    Alterable signed n m .expression (name :: sign :: w) (.assign name.text e ()) := by
  intro k x hx
  obtain ⟨y, rfl, hy⟩ := hx.cons_kind_inv hname (by decide) (by decide)
  obtain ⟨z, rfl, hz⟩ := hy.cons_kind_inv hsign (by decide) (by decide)
  obtain ⟨e', hderives, hswaps⟩ := h _ _ hz
  exact ⟨_, .assign hname hsign hderives, .assign hswaps⟩

/-- Behind the left operand a minus sign belongs to no number. -/
theorem binary {level : Nat} {op : BinaryOp} {a b : Expr .parsed} (hjoins : Joins level sign.kind op)
    (hclosed : closed false u = true) (ha : Alterable signed n m (.operation level) u a)
    (hb : Alterable signed n m (.operation (level + 1)) v b) :
    Alterable signed n m (.operation level) (u ++ sign :: v) (.binary op a b ()) := by
  intro k x hx
  obtain ⟨hnumber, hopen⟩ := joins_kind hjoins
  obtain ⟨i, j, y, z, rfl, rfl, hy, hz⟩ := hx.append_inv (by rintro t ⟨⟩; exact hnumber)
  obtain ⟨z', rfl, hz'⟩ := hz.cons_inv hnumber fun _ => hclosed
  rw [hopen] at hz'
  obtain ⟨a', hderives, ha'⟩ := ha _ _ hy
  obtain ⟨b', hderives', hb'⟩ := hb _ _ hz'
  exact ⟨_, .binary hjoins hderives hderives', .binary ha' hb'⟩

/-- A minus sign and a number behind it may be altered as one. -/
theorem unary {op : UnaryOp} (hm : Fits signed m) (hsign : (sign.kind, op) ∈ leading)
    (he : Derives .operand w e) (h : Alterable signed n m .operand w e) :
    Alterable signed n m .operand (sign :: w) (.unary op e ()) := by
  intro k x hx
  obtain ⟨hnumber, hopen⟩ := leading_kind hsign
  cases hx with
  | keep _ hx =>
      rw [hopen] at hx
      obtain ⟨e', hderives, hswaps⟩ := h _ _ hx
      exact ⟨_, .unary hsign hderives, .unary hswaps⟩
  | bare _ ht => exact absurd ht hnumber
  | pair hsigned hminus ht htext hx =>
      subst hsigned
      obtain ⟨rfl, n', hn', htext', rfl⟩ := he.operand_number ht
      obtain ⟨rfl, rfl⟩ := hx.nil_inv
      obtain rfl := Text.toString_injective (htext.symm.trans htext')
      obtain rfl : op = .negate := by
        rw [hminus] at hsign
        simpa [leading] using hsign
      refine ⟨_, derives_pair hminus ht rfl hm, ?_⟩
      rw [Constant.numeral_negated hn']
      exact .here

/-- The least integer is written with its sign, so its two tokens are altered as one number. -/
theorem least {number : Token} (hn : Fits signed n) (hm : Fits signed m) (hsign : sign.kind = .minus)
    (hnumber : number.kind = .number) (htext : number.text = toString magnitude) :
    Alterable signed n m .operand [sign, number] (.int Int64.minValue ()) := by
  intro k x hx
  cases hx with
  | keep _ hx =>
      obtain ⟨rfl, rfl⟩ | ⟨rfl, htext', -, -⟩ := hx.single_inv
      · exact ⟨_, .least hsign hnumber htext, .int⟩
      · obtain rfl := Text.toString_injective (htext.symm.trans htext')
        obtain hlt | ⟨h, -⟩ := hn
        · exact absurd hlt (Nat.lt_irrefl _)
        · cases h
  | bare _ ht =>
      rw [hsign] at ht
      cases ht
  | pair hsigned _ ht htext' hx =>
      subst hsigned
      obtain ⟨rfl, rfl⟩ := hx.nil_inv
      obtain rfl := Text.toString_injective (htext.symm.trans htext')
      refine ⟨_, derives_pair hsign ht rfl hm, ?_⟩
      rw [Constant.numeral_least]
      exact .here

theorem number {l : Nat} (hm : Fits signed m) (ht : t.kind = .number) (htext : t.text = toString l)
    (hsmall : l < magnitude) : Alterable signed n m .primary [t] (.int (Int64.ofNat l) ()) := by
  intro k x hx
  obtain ⟨rfl, rfl⟩ | ⟨rfl, htext', rfl, rfl⟩ := hx.single_inv
  · exact ⟨_, .number ht htext hsmall, .int⟩
  · obtain rfl := Text.toString_injective (htext.symm.trans htext')
    refine ⟨_, derives_bare ht rfl hm, ?_⟩
    rw [Constant.numeral_bare]
    exact .here

theorem unit (hopening : opening.kind = .lparen) (hclosing : closing.kind = .rparen) :
    Alterable signed n m .primary [opening, closing] (.unit ()) := by
  intro k x hx
  obtain ⟨y, rfl, hy⟩ := hx.cons_kind_inv hopening (by decide) (by decide)
  obtain ⟨z, rfl, hz⟩ := hy.cons_kind_inv hclosing (by decide) (by decide)
  obtain ⟨rfl, rfl⟩ := hz.nil_inv
  exact ⟨_, .unit hopening hclosing, .unit⟩

theorem paren (hopening : opening.kind = .lparen) (h : Alterable signed n m .expression w e)
    (hclosing : closing.kind = .rparen) : Alterable signed n m .primary (opening :: (w ++ [closing])) e := by
  intro k x hx
  obtain ⟨y, rfl, hy⟩ := hx.cons_kind_inv hopening (by decide) (by decide)
  obtain ⟨z, rfl, hz⟩ := hy.concat_inv hclosing (by decide) (by decide)
  obtain ⟨e', hderives, hswaps⟩ := h _ _ hz
  exact ⟨e', .paren hopening hderives hclosing, hswaps⟩

theorem block (hopening : opening.kind = .lbrace) (h : Alterable signed n m .body w body)
    (hclosing : closing.kind = .rbrace) : Alterable signed n m .block (opening :: (w ++ [closing])) body := by
  intro k x hx
  obtain ⟨y, rfl, hy⟩ := hx.cons_kind_inv hopening (by decide) (by decide)
  obtain ⟨z, rfl, hz⟩ := hy.concat_inv hclosing (by decide) (by decide)
  obtain ⟨body', hderives, hswaps⟩ := h _ _ hz
  exact ⟨body', .block hopening hderives hclosing, hswaps⟩

/-- The condition, the body and the rest of a choice are altered each by itself. -/
theorem arm {k : Nat} {x : List Token} (hcond : Alterable signed n m .expression u cond)
    (hv : Derives .block v body) (hbody : Alterable signed n m .block v body)
    (hw : Derives .branches w others) (hothers : Alterable signed n m .branches w others)
    (hx : Alters signed n m false k (u ++ (v ++ w)) x) :
    ∃ i j l a b c cond' body' others', k = i + j + l ∧ x = a ++ (b ++ c) ∧
      (Derives .expression a cond' ∧
        Category.Swapped (.numeral signed n) (.numeral signed m) .expression i cond cond') ∧
      (Derives .block b body' ∧
        Category.Swapped (.numeral signed n) (.numeral signed m) .block j body body') ∧
      Derives .branches c others' ∧
        Category.Swapped (.numeral signed n) (.numeral signed m) .branches l others others' := by
  obtain ⟨i, j, a, z, rfl, rfl, ha, hz⟩ := hx.parts (hv.append_head _)
  obtain ⟨j, l, b, c, rfl, rfl, hb, hc⟩ := hz.parts hw.branches_head
  obtain ⟨cond', hcond⟩ := hcond _ _ ha
  obtain ⟨body', hbody⟩ := hbody _ _ hb
  obtain ⟨others', hothers⟩ := hothers _ _ hc
  exact ⟨i, j, l, a, b, c, cond', body', others', (Nat.add_assoc i j l).symm, rfl, hcond, hbody, hothers⟩

theorem choice (hword : word.kind = .kwIf) (hcond : Alterable signed n m .expression u cond)
    (hv : Derives .block v body) (hbody : Alterable signed n m .block v body)
    (hw : Derives .branches w others) (hothers : Alterable signed n m .branches w others) :
    Alterable signed n m .primary (word :: (u ++ (v ++ w))) (.choice cond body others ()) := by
  intro k x hx
  obtain ⟨y, rfl, hy⟩ := hx.cons_kind_inv hword (by decide) (by decide)
  obtain ⟨i, j, l, a, b, c, cond', body', others', rfl, rfl, hc, hb, ho⟩ := arm hcond hv hbody hw hothers hy
  exact ⟨_, .choice hword hc.1 hb.1 ho.1, .choice hc.2 hb.2 ho.2⟩

theorem orIf (hword : word.kind = .kwElif) (hcond : Alterable signed n m .expression u cond)
    (hv : Derives .block v body) (hbody : Alterable signed n m .block v body)
    (hw : Derives .branches w others) (hothers : Alterable signed n m .branches w others) :
    Alterable signed n m .branches (word :: (u ++ (v ++ w))) (.orIf cond body others) := by
  intro k x hx
  obtain ⟨y, rfl, hy⟩ := hx.cons_kind_inv hword (by decide) (by decide)
  obtain ⟨i, j, l, a, b, c, cond', body', others', rfl, rfl, hc, hb, ho⟩ := arm hcond hv hbody hw hothers hy
  exact ⟨_, .orIf hword hc.1 hb.1 ho.1, .orIf hc.2 hb.2 ho.2⟩

theorem loop (hword : word.kind = .kwWhile) (hcond : Alterable signed n m .expression u cond)
    (hv : Derives .block v body) (hbody : Alterable signed n m .block v body) :
    Alterable signed n m .primary (word :: (u ++ v)) (.loop cond body ()) := by
  intro k x hx
  obtain ⟨y, rfl, hy⟩ := hx.cons_kind_inv hword (by decide) (by decide)
  obtain ⟨i, j, a, b, rfl, rfl, ha, hb⟩ := hy.parts hv.block_head
  obtain ⟨cond', hderives, hcond'⟩ := hcond _ _ ha
  obtain ⟨body', hderives', hbody'⟩ := hbody _ _ hb
  exact ⟨_, .loop hword hderives hderives', .loop hcond' hbody'⟩

theorem otherwise (hword : word.kind = .kwElse) (h : Alterable signed n m .block w body) :
    Alterable signed n m .branches (word :: w) (.otherwise body) := by
  intro k x hx
  obtain ⟨y, rfl, hy⟩ := hx.cons_kind_inv hword (by decide) (by decide)
  obtain ⟨body', hderives, hswaps⟩ := h _ _ hy
  exact ⟨_, .otherwise hword hderives, .otherwise hswaps⟩

theorem divided {semi : Token} (hs : Alterable signed n m .statement w s) (hsemi : semi.kind = .semi)
    (hrest : Alterable signed n m .body rest body) :
    Alterable signed n m .body (w ++ semi :: rest) (s :: body) := by
  intro k x hx
  obtain ⟨i, j, y, z, rfl, rfl, hy, hz⟩ := hx.parts (by rintro t ⟨⟩; rw [hsemi]; decide)
  obtain ⟨z', rfl, hz'⟩ := hz.cons_kind_inv hsemi (by decide) (by decide)
  obtain ⟨s', hderives, hs'⟩ := hs _ _ hy
  obtain ⟨rest', hderives', hrest'⟩ := hrest _ _ hz'
  exact ⟨_, .divided hderives hsemi hderives', .cons hs' hrest'⟩

/-- Behind a brace an operand may end, but the next statement does not begin with a minus sign. -/
theorem undivided {brace next : Token} (hs : Alterable signed n m .statement (w ++ [brace]) s)
    (hbrace : brace.kind = .rbrace) (hnext : ∀ level op, ¬Joins level next.kind op)
    (hrest : Alterable signed n m .body (next :: rest) body) :
    Alterable signed n m .body (w ++ brace :: next :: rest) (s :: body) := by
  intro k x hx
  have hminus : ∀ t ∈ (next :: rest).head?, t.kind ≠ .minus := by
    rintro t ⟨⟩
    exact ne_minus_of_not_joins hnext
  obtain ⟨i, j, y, z, rfl, rfl, hy, hz⟩ := hx.parts (by rintro t ⟨⟩; rw [hbrace]; decide)
  obtain ⟨z', rfl, hz'⟩ := hz.cons_kind_inv hbrace (by decide) (by decide)
  obtain ⟨next', rest', rfl, hkind⟩ := hz'.head_inv
  obtain ⟨s', hderives, hs'⟩ := hs _ _ (hy.append (.keep _ .nil))
  obtain ⟨rest', hderives', hrest'⟩ := hrest _ _ (hz'.change hminus false)
  exact ⟨_, .undivided hderives hbrace (hkind ▸ hnext) hderives', .cons hs' hrest'⟩

theorem declare {type : Ty} (hword : (word.kind, type) ∈ typeWords) (hname : name.kind = .ident)
    (hsign : sign.kind = .eq) (h : Alterable signed n m .expression w init) :
    Alterable signed n m .statement (word :: name :: sign :: w) (.declare type name.text init word) := by
  intro k x hx
  obtain ⟨y, rfl, hy⟩ := hx.cons_kind_inv rfl (type_kind hword).1 (type_kind hword).2
  obtain ⟨z, rfl, hz⟩ := hy.cons_kind_inv hname (by decide) (by decide)
  obtain ⟨z', rfl, hz'⟩ := hz.cons_kind_inv hsign (by decide) (by decide)
  obtain ⟨init', hderives, hswaps⟩ := h _ _ hz'
  exact ⟨_, .declare hword hname hsign hderives, .declare trivial hswaps⟩

theorem write {newline : Bool} (hword : (word.kind, newline) ∈ writeWords)
    (h : Alterable signed n m .expression w value) :
    Alterable signed n m .statement (word :: w) (.write newline value () word) := by
  intro k x hx
  obtain ⟨hnumber, hminus, hopen⟩ := write_kind hword
  obtain ⟨y, rfl, hy⟩ := hx.cons_kind_inv rfl hnumber hminus
  rw [hopen] at hy
  obtain ⟨value', hderives, hswaps⟩ := h _ _ hy
  exact ⟨_, .write hword hderives, .write trivial hswaps⟩

end Alterable

/-- A phrase in which numbers are altered is still a phrase, and its tree is altered in the same
places. -/
theorem Derives.alter (hn : Fits signed n) (hm : Fits signed m) {c : Category} {tree : c.Tree}
    (h : Derives c w tree) : Alterable signed n m c w tree := by
  induction h with
  | assign hname hsign _ ih => exact .assign hname hsign ih
  | binary hjoins ha _ iha ihb => exact .binary hjoins ha.closes iha ihb
  | unary hsign he ih => exact .unary hm hsign he ih
  | least hsign hnumber htext => exact .least hn hm hsign hnumber htext
  | number ht htext hsmall => exact .number hm ht htext hsmall
  | string ht => exact .single (by rw [ht]; decide) (by rw [ht]; decide) (.string ht) .string
  | truth ht => exact .single (truth_kind ht).1 (truth_kind ht).2.1 (.truth ht) .bool
  | var ht => exact .single (by rw [ht]; decide) (by rw [ht]; decide) (.var ht) .var
  | unit hopening hclosing => exact .unit hopening hclosing
  | paren hopening _ hclosing ih => exact .paren hopening ih hclosing
  | choice hword _ hv hw ihu ihv ihw => exact .choice hword ihu hv ihv hw ihw
  | loop hword _ hv ihu ihv => exact .loop hword ihu hv ihv
  | otherwise hword _ ih => exact .otherwise hword ih
  | orIf hword _ hv hw ihu ihv ihw => exact .orIf hword ihu hv ihv hw ihw
  | block hopening _ hclosing ih => exact .block hopening ih hclosing
  | divided _ hsemi _ ihs ihrest => exact .divided ihs hsemi ihrest
  | undivided _ hbrace hnext _ ihs ihrest => exact .undivided ihs hbrace hnext ihrest
  | declare hword hname hsign _ ih => exact .declare hword hname hsign ih
  | write hword _ ih => exact .write hword ih
  | leave hword => exact .single (by rw [hword]; decide) (by rw [hword]; decide) (.leave hword) (.leave trivial)
  | again hword => exact .single (by rw [hword]; decide) (by rw [hword]; decide) (.again hword) (.again trivial)
  | operation _ ih => exact ih.whole .expression id (fun _ _ h => .operation h) fun _ _ => id
  | @tighter level _ _ hlevel _ ih => exact ih.whole (.operation level) id (fun _ _ h => .tighter hlevel h) fun _ _ => id
  | operand _ ih => exact ih.whole (.operation _) id (fun _ _ h => .operand h) fun _ _ => id
  | primary _ ih => exact ih.whole .operand id (fun _ _ h => .primary h) fun _ _ => id
  | braced _ ih => exact ih.whole .primary (Expr.block · ()) (fun _ _ h => .braced h) fun _ _ h => .block h
  | done => exact .nothing .done .done
  | empty => exact .nothing .empty .nil
  | last _ ih => exact ih.whole .body ([·]) (fun _ _ h => .last h) fun _ _ h => .cons h .nil
  | expr _ ih =>
      intro k x hx
      obtain ⟨s, y, rfl, -⟩ := hx.head_inv
      obtain ⟨value', h, hswaps⟩ := ih _ _ hx
      exact ⟨_, .expr h, .expr trivial hswaps⟩

/-! ### The number 2^63 -/

/-- The last of some tokens is a minus sign in front of an operand. -/
def Negated (w : List Token) : Prop :=
  ∃ front sign, w = front ++ [sign] ∧ sign.kind = .minus ∧ closed false front = false

/-- Wherever the number 2^63 stands, it stands right behind a minus sign in front of an operand. -/
def Bound (before : Bool) (w : List Token) : Prop :=
  ∀ u t v, w = u ++ t :: v → t.kind = .number → t.text = toString magnitude →
    ∃ front sign, u = front ++ [sign] ∧ sign.kind = .minus ∧ closed before front = false

namespace Bound

variable {before : Bool} {u v : List Token} {kind : TokenKind}

theorem nil : Bound before [] := by
  intro u t v hw
  simp at hw

theorem single (ht : t.kind = .number → t.text ≠ toString magnitude) : Bound before [t] := by
  intro u s v hw hs htext
  cases u with
  | nil =>
      cases hw
      exact absurd htext (ht hs)
  | cons r u => simp at hw

/-- If 2^63 has its sign in each of two texts, so it has in the two in a row. -/
theorem append (hu : Bound before u) (hv : Bound (closed before u) v) : Bound before (u ++ v) := by
  intro u' t v' huv ht htext
  obtain ⟨w, rfl, hw⟩ | ⟨w, rfl, hw⟩ := List.append_eq_append_iff.mp huv
  · obtain ⟨front, sign, rfl, hsign, hclosed⟩ := hv w t v' hw ht htext
    rw [← closed_append] at hclosed
    exact ⟨u ++ front, sign, (List.append_assoc u front [sign]).symm, hsign, hclosed⟩
  · cases w with
    | nil =>
        rw [List.append_nil] at hv
        obtain ⟨front, sign, h, -⟩ := hv [] t v' hw.symm ht htext
        simp at h
    | cons s w =>
        obtain ⟨rfl, -⟩ := List.cons.inj hw
        exact hu u' t w rfl ht htext

theorem cons (ht : t.kind = kind) (hkind : kind ≠ .number) (hw : Bound kind.endsOperand w) :
    Bound before (t :: w) := by
  subst ht
  exact append (single fun h => absurd h hkind) hw

/-- Only a minus sign at the beginning depends on what is in front. -/
theorem change (h : Bound before w) (hhead : ∀ t ∈ w.head?, t.kind ≠ .minus) (after : Bool) :
    Bound after w := by
  intro u t v hw ht htext
  obtain ⟨front, sign, rfl, hsign, hclosed⟩ := h u t v hw ht htext
  refine ⟨front, sign, rfl, hsign, ?_⟩
  cases front with
  | nil =>
      rw [hw] at hhead
      exact absurd hsign (hhead sign rfl)
  | cons s front => exact hclosed

end Bound

/-- In a phrase, the number 2^63 stands right behind a minus sign in front of an operand. -/
theorem Derives.bound {c : Category} {tree : c.Tree} (h : Derives c w tree) : Bound false w := by
  induction h with
  | assign hname hsign _ ih => exact .cons hname (by decide) (.cons hsign (by decide) ih)
  | operation _ ih => exact ih
  | binary hjoins _ _ iha ihb =>
      obtain ⟨hnumber, hopen⟩ := joins_kind hjoins
      exact iha.append (.cons rfl hnumber (hopen ▸ ihb))
  | tighter _ _ ih => exact ih
  | operand _ ih => exact ih
  | unary hsign _ ih =>
      obtain ⟨hnumber, hopen⟩ := leading_kind hsign
      exact .cons rfl hnumber (hopen ▸ ih)
  | @least sign number hsign _ _ =>
      intro u t v hw ht _
      cases u with
      | nil =>
          cases hw
          rw [hsign] at ht
          cases ht
      | cons s u =>
          cases u with
          | nil =>
              cases hw
              exact ⟨[], sign, rfl, hsign, rfl⟩
          | cons r u => simp at hw
  | primary _ ih => exact ih
  | number _ htext hsmall =>
      refine .single fun _ h => ?_
      have heq := Text.toString_injective (htext.symm.trans h)
      exact absurd hsmall (heq ▸ Nat.lt_irrefl _)
  | string ht | var ht => exact .cons ht (by decide) .nil
  | truth ht => exact .cons rfl (truth_kind ht).1 .nil
  | unit hopening hclosing => exact .cons hopening (by decide) (.cons hclosing (by decide) .nil)
  | paren hopening _ hclosing ih =>
      exact .cons hopening (by decide) (ih.append (.cons hclosing (by decide) .nil))
  | braced _ ih => exact ih
  | choice hword _ hv hw ihu ihv ihw =>
      refine .cons hword (by decide) (ihu.append ?_)
      exact (ihv.change (fun t ht => (hv.block_head t ht).2) _).append
        (ihw.change (fun t ht => (hw.branches_head t ht).2) _)
  | loop hword _ hv ihu ihv =>
      exact .cons hword (by decide) (ihu.append (ihv.change (fun t ht => (hv.block_head t ht).2) _))
  | done => exact .nil
  | otherwise hword _ ih => exact .cons hword (by decide) ih
  | orIf hword _ hv hw ihu ihv ihw =>
      refine .cons hword (by decide) (ihu.append ?_)
      exact (ihv.change (fun t ht => (hv.block_head t ht).2) _).append
        (ihw.change (fun t ht => (hw.branches_head t ht).2) _)
  | block hopening _ hclosing ih =>
      exact .cons hopening (by decide) (ih.append (.cons hclosing (by decide) .nil))
  | empty => exact .nil
  | last _ ih => exact ih
  | divided _ hsemi _ ihs ihrest => exact ihs.append (.cons hsemi (by decide) ihrest)
  | @undivided brace next w rest _ _ _ hbrace hnext _ ihs ihrest =>
      have hminus : ∀ t ∈ (next :: rest).head?, t.kind ≠ .minus := by
        rintro t ⟨⟩
        exact ne_minus_of_not_joins hnext
      have hsplit : w ++ brace :: next :: rest = (w ++ [brace]) ++ next :: rest := by simp
      rw [hsplit]
      exact ihs.append (ihrest.change hminus _)
  | declare hword hname hsign _ ih =>
      exact .cons rfl (type_kind hword).1 (.cons hname (by decide) (.cons hsign (by decide) ih))
  | write hword _ ih =>
      obtain ⟨hnumber, -, hopen⟩ := write_kind hword
      exact .cons rfl hnumber (hopen ▸ ih)
  | leave hword | again hword => exact .cons hword (by decide) .nil
  | expr _ ih => exact ih

/-- Tokens with a number in one place: the token there, but for its text, and the ones around it. -/
def withNumber (u : List Token) (t : Token) (w : List Token) (n : Nat) : List Token :=
  u ++ { t with text := toString n } :: w

theorem withNumber_self {u : List Token} (h : t.text = toString n) :
    withNumber u t w n = u ++ t :: w := by
  rw [withNumber, ← h]

/-- Two numbers in the same place differ by one alteration. -/
theorem alters_withNumber {u : List Token} (ht : t.kind = .number) (hu : signed = true → Negated u) :
    Alters signed n m false 1 (withNumber u t w n) (withNumber u t w m) := by
  cases signed with
  | false =>
      have hbare : Alters false n m (closed false u) 1 ({ t with text := toString n } :: w)
          ({ t with text := toString m } :: w) := .bare rfl ht rfl (.refl true w)
      exact (Alters.refl false u).append hbare
  | true =>
      obtain ⟨front, sign, rfl, hsign, hclosed⟩ := hu rfl
      have hpair : Alters true n m (closed false front) 1 (sign :: { t with text := toString n } :: w)
          (sign :: { t with text := toString m } :: w) := by
        rw [hclosed]
        exact .pair rfl hsign ht rfl (.refl true w)
      have happend := (Alters.refl false front).append hpair
      rw [withNumber, withNumber, List.append_assoc, List.append_assoc]
      exact happend

/-- A number can stand between some tokens, of which the last one is an end marker. -/
structure Placed (u : List Token) (t : Token) (w : List Token) : Prop where
  inner : ∀ s ∈ u, s.kind ≠ .eof
  number : t.kind = .number
  last : ∃ last, w.getLast? = some last ∧ last.kind = .eof
  proper : ∀ s ∈ u ++ w, s.Proper

namespace Placed

variable {u : List Token} {tree : Body .parsed}

theorem front_withNumber (h : Placed u t w) :
    front (withNumber u t w n) = withNumber u t (front w) n := by
  rw [front, withNumber, List.takeWhile_append_of_pos fun s hs => bne_iff_ne.mpr (h.inner s hs)]
  simp [withNumber, front, h.number]

/-- With a number of at most 2^63 in its place, a text is parsed just as its phrase says. -/
theorem parse_iff (h : Placed u t w) (hn : n ≤ magnitude) :
    parse (withNumber u t w n) = .ok tree ↔ Derives .body (withNumber u t (front w) n) tree := by
  rw [← h.front_withNumber]
  apply Parse.parse_iff_front
  · obtain ⟨last, hlast, hkind⟩ := h.last
    refine ⟨last, ?_, hkind⟩
    rw [withNumber, List.getLast?_append, List.getLast?_cons, hlast]
    rfl
  · intro s hs
    obtain hs | hs := List.mem_append.mp hs
    · exact h.proper s (List.mem_append_left w hs)
    · obtain rfl | hs := List.mem_cons.mp hs
      · exact fun _ => ⟨n, hn, rfl⟩
      · exact h.proper s (List.mem_append_right u hs)

theorem parse_alter (h : Placed u t w) (hn : Fits signed n) (hm : Fits signed m)
    (hu : signed = true → Negated u) (hparse : parse (withNumber u t w n) = .ok tree) :
    ∃ tree', parse (withNumber u t w m) = .ok tree' ∧
      Swaps (fun _ _ => True) (Constant.numeral signed n).parsed (Constant.numeral signed m).parsed .body 1
        tree tree' := by
  obtain ⟨tree', hderives, hswaps⟩ :=
    ((h.parse_iff hn.le).mp hparse).alter hn hm _ _ (alters_withNumber h.number hu)
  exact ⟨tree', (h.parse_iff hm.le).mpr hderives, hswaps⟩

theorem negated_of_parse (h : Placed u t w) (hparse : parse (withNumber u t w magnitude) = .ok tree) :
    Negated u :=
  ((h.parse_iff (Nat.le_refl _)).mp hparse).bound u _ _ rfl h.number rfl

/-- The number 2^63 is accepted in exactly the places where zero is and a minus sign in front of an
operand is right before it. -/
theorem parse_magnitude_iff (h : Placed u t w) :
    (∃ tree, parse (withNumber u t w magnitude) = .ok tree) ↔
      Negated u ∧ ∃ tree, parse (withNumber u t w 0) = .ok tree := by
  have hzero : Fits true 0 := .inl (by decide)
  have hleast : Fits true magnitude := .inr ⟨rfl, rfl⟩
  constructor
  · rintro ⟨tree, hparse⟩
    have hnegated := h.negated_of_parse hparse
    obtain ⟨tree', hparse', -⟩ := h.parse_alter hleast hzero (fun _ => hnegated) hparse
    exact ⟨hnegated, tree', hparse'⟩
  · rintro ⟨hnegated, tree, hparse⟩
    obtain ⟨tree', hparse', -⟩ := h.parse_alter hzero hleast (fun _ => hnegated) hparse
    exact ⟨tree', hparse'⟩

theorem ofTokens_alter (h : Placed u t w) (hn : Fits signed n) (hm : Fits signed m)
    (hu : signed = true → Negated u)
    (hlength : (Constant.numeral signed m).code.length ≤ (Constant.numeral signed n).code.length)
    {p : Program} (hp : Compilation.ofTokens (withNumber u t w n) = .ok p) :
    ∃ p', Compilation.ofTokens (withNumber u t w m) = .ok p' ∧
      p.Patched (Constant.numeral signed n).code (Constant.numeral signed m).code 1 p' := by
  obtain ⟨tree, -, -, -, -, hparse, -⟩ := Compilation.ofTokens_eq_ok_iff.mp hp
  obtain ⟨tree', hparse', hswaps⟩ := h.parse_alter hn hm hu hparse
  exact Compilation.ofTokens_swapped hparse hparse' hswaps hlength hp

end Placed

end Grammar

end BlockLang

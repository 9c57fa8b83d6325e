import BlockLang.Proofs.Numerals
import BlockLang.Proofs.Quotation
import BlockLang.Tree.Outline
import Mathlib.Data.List.Nodup

/-! An outline determines its tree. The indentation closes what it opens: the lines under a node are deeper than the
node's own, so more lines of no greater depth can follow them without being taken for a part of the node. A node's
line gives away the sort of the node by its first word, and the data that go with the sort. So two trees with the
same lines are built alike from the root on. The trees must be legible: their names are words, and the tag of a
printed value is the tag that is printed, as an outline does not show it a second time. -/

namespace BlockLang

/-- Lists that share a property up to a first element without it can be told from what follows them. -/
theorem append_inj_of_stop {α : Type} {p : α → Prop} {xs ys rest rest' : List α} (hxs : ∀ a ∈ xs, p a)
    (hys : ∀ a ∈ ys, p a) (hrest : ∀ a ∈ rest.head?, ¬p a) (hrest' : ∀ a ∈ rest'.head?, ¬p a)
    (h : xs ++ rest = ys ++ rest') : xs = ys ∧ rest = rest' := by
  induction xs generalizing ys with
  | nil =>
      cases ys with
      | nil => exact ⟨rfl, h⟩
      | cons y ys =>
          obtain rfl : rest = y :: (ys ++ rest') := h
          exact absurd (hys y List.mem_cons_self) (hrest y rfl)
  | cons x xs ih =>
      cases ys with
      | nil =>
          obtain rfl : rest' = x :: (xs ++ rest) := h.symm
          exact absurd (hxs x List.mem_cons_self) (hrest' x rfl)
      | cons y ys =>
          obtain ⟨rfl, htail⟩ := List.cons.inj h
          obtain ⟨rfl, hrests⟩ := ih (fun a ha => hxs a (List.mem_cons_of_mem _ ha))
            (fun a ha => hys a (List.mem_cons_of_mem _ ha)) htail
          exact ⟨rfl, hrests⟩

/-- A text without blanks and line ends. -/
def IsPlain (cs : List Char) : Prop := ∀ c ∈ cs, c ≠ ' ' ∧ c ≠ '\n'

/-- A text that may follow a word: it is empty or begins with a blank, and has no line end. -/
structure Trails (cs : List Char) : Prop where
  blank : ∀ c ∈ cs.head?, c = ' '
  line : '\n' ∉ cs

theorem head?_cons (a : Char) (cs : List Char) : ∀ c ∈ (a :: cs).head?, c = a :=
  fun _ hc => (Option.some.inj hc).symm

theorem IsPlain.newline_notMem {cs : List Char} (h : IsPlain cs) : '\n' ∉ cs :=
  fun hmem => (h _ hmem).2 rfl

/-- A word can be told from what follows it. -/
theorem IsPlain.inj {cs ds rest rest' : List Char} (hcs : IsPlain cs) (hds : IsPlain ds)
    (hrest : ∀ c ∈ rest.head?, c = ' ') (hrest' : ∀ c ∈ rest'.head?, c = ' ') (h : cs ++ rest = ds ++ rest') :
    cs = ds ∧ rest = rest' :=
  append_inj_of_stop (fun c hc => (hcs c hc).1) (fun c hc => (hds c hc).1) (fun c hc => not_not.mpr (hrest c hc))
    (fun c hc => not_not.mpr (hrest' c hc)) h

theorem mem_toString_int {n : Int} {c : Char} (h : c ∈ (toString n).toList) : c.isDigit = true ∨ c = '-' := by
  cases n with
  | ofNat n => exact .inl (Text.isDigit_of_mem_toString h)
  | negSucc n =>
      have h : c ∈ ("-" ++ toString (n + 1)).toList := h
      rw [String.toList_append, List.mem_append] at h
      rcases h with h | h
      · exact .inr (by simpa using h)
      · exact .inl (Text.isDigit_of_mem_toString h)

/-- No two integers are written alike. -/
theorem toString_int_injective {n m : Int} (h : toString n = toString m) : n = m := by
  have hsign : ∀ k l : Nat, toString k ≠ "-" ++ toString l := by
    intro k l h
    have hmem : '-' ∈ (toString k).toList := by
      rw [h, String.toList_append]
      exact List.mem_append_left _ (by decide)
    exact absurd (Text.isDigit_of_mem_toString hmem) (by decide)
  cases n with
  | ofNat n =>
      cases m with
      | ofNat m => exact congrArg Int.ofNat (Text.toString_injective h)
      | negSucc m => exact absurd h (hsign n (m + 1))
  | negSucc n =>
      cases m with
      | ofNat m => exact absurd h.symm (hsign m (n + 1))
      | negSucc m =>
          have h : "-" ++ toString (n + 1) = "-" ++ toString (m + 1) := h
          rw [← String.toList_inj, String.toList_append, String.toList_append] at h
          have hnumeral := Text.toString_injective (String.toList_inj.mp (List.append_cancel_left h))
          rw [Nat.succ.inj hnumeral]

theorem ne_of_mem_toString_int {n : Int} {c d : Char} (h : c ∈ (toString n).toList) (hdigit : d.isDigit = false)
    (hsign : d ≠ '-') : c ≠ d := by
  rintro rfl
  rcases mem_toString_int h with hc | hc
  · exact Bool.false_ne_true (hdigit.symm.trans hc)
  · exact hsign hc

theorem isPlain_toString_int (n : Int) : IsPlain (toString n).toList :=
  fun _ hc => ⟨ne_of_mem_toString_int hc (by decide) (by decide), ne_of_mem_toString_int hc (by decide) (by decide)⟩

/-- The data of a phase are told apart by how they are written, and its tags and marks by where they stand. -/
class Phase.Legible (P : Phase) [Phase.Written P] : Prop where
  name_inj {n n' : P.Name} : Phase.Written.name n = Phase.Written.name n' → n = n'
  tag_inj {t t' : P.Tag} : Phase.Written.tag t = Phase.Written.tag t' → t = t'
  mark_inj {m m' : P.Mark} : Phase.Written.mark m = Phase.Written.mark m' → m = m'
  tag_trails (t : P.Tag) : Trails (Phase.Written.tag t).toList
  mark_trails (m : P.Mark) : Trails (Phase.Written.mark m).toList

theorem Ty.name_inj {t t' : Ty} (h : t.name = t'.name) : t = t' := by
  revert h
  cases t <;> cases t' <;> decide

theorem Ty.isPlain_name (t : Ty) : IsPlain t.name.toList := by
  cases t <;> simp [name, IsPlain]

theorem Ty.trails_name (t : Ty) : Trails (" : " ++ t.name).toList := by
  rw [String.toList_append]
  refine ⟨fun c hc => ?_, ?_⟩
  · simpa using hc.symm
  · rw [List.mem_append, not_or]
    exact ⟨by decide, t.isPlain_name.newline_notMem⟩

theorem Ty.written_inj {t t' : Ty} (h : " : " ++ t.name = " : " ++ t'.name) : t = t' := by
  rw [← String.toList_inj, String.toList_append, String.toList_append] at h
  exact Ty.name_inj (String.toList_inj.mp (List.append_cancel_left h))

instance : Phase.Legible .typed where
  name_inj h := h
  tag_inj := Ty.written_inj
  mark_inj := Ty.written_inj
  tag_trails := Ty.trails_name
  mark_trails := Ty.trails_name

instance : Phase.Legible .resolved where
  name_inj := by
    intro n n' h
    have h : "#" ++ toString n = "#" ++ toString n' := h
    rw [← String.toList_inj, String.toList_append, String.toList_append] at h
    exact Text.toString_injective (String.toList_inj.mp (List.append_cancel_left h))
  tag_inj := Ty.written_inj
  mark_inj := Ty.written_inj
  tag_trails := Ty.trails_name
  mark_trails := Ty.trails_name

theorem isPlain_toString_bool (b : Bool) : IsPlain (toString b).toList := by
  have hspelling : toString b = if b then "true" else "false" := by cases b <;> rfl
  rw [hspelling]
  cases b <;> simp [IsPlain]

theorem toString_bool_injective {b b' : Bool} (h : toString b = toString b') : b = b' := by
  revert h
  cases b <;> cases b' <;> decide

theorem UnaryOp.isPlain_symbol (op : UnaryOp) : IsPlain op.symbol.toList := by
  cases op <;> simp [symbol, IsPlain]

theorem BinaryOp.isPlain_symbol (op : BinaryOp) : IsPlain op.symbol.toList := by
  cases op <;> simp [symbol, IsPlain]

theorem UnaryOp.symbol_inj {op op' : UnaryOp} (h : op.symbol = op'.symbol) : op = op' := by
  revert h
  cases op <;> cases op' <;> decide

theorem BinaryOp.symbol_inj {op op' : BinaryOp} (h : op.symbol = op'.symbol) : op = op' := by
  revert h
  cases op <;> cases op' <;> decide

/-! ### Labels -/

/-- The words that begin a node's line, one for each sort of node. -/
inductive Word where
  | int
  | string
  | bool
  | unit
  | var
  | assign
  | unary
  | binary
  | block
  | choice
  | loop
  | declare
  | write
  | writeln
  | leave
  | again
  | expr
  deriving DecidableEq

namespace Word

def all : List Word :=
  [int, string, bool, unit, var, assign, unary, binary, block, choice, loop, declare, write, writeln, leave, again,
    expr]

def text : Word → String
  | int => "Int"
  | string => "String"
  | bool => "Bool"
  | unit => "Unit"
  | var => "Var"
  | assign => "Assign"
  | unary => "Unary"
  | binary => "Binary"
  | block => "Block"
  | choice => "If"
  | loop => "While"
  | declare => "Declare"
  | write => "Write"
  | writeln => "Writeln"
  | leave => "Break"
  | again => "Continue"
  | expr => "Expr"

theorem mem_all (w : Word) : w ∈ all := by
  cases w <;> decide

theorem text_inj {w w' : Word} (h : w.text = w'.text) : w = w' := by
  have hnodup : (all.map text).Nodup := by decide
  exact List.inj_on_of_nodup_map hnodup w.mem_all w'.mem_all h

theorem isPlain_text (w : Word) : IsPlain w.text.toList := by
  cases w <;> simp [text, IsPlain]

variable {P : Phase}

abbrev Data (P : Phase) : Word → Type
  | int => Int64
  | string => String
  | bool => Bool
  | var | assign => P.Name
  | unary => UnaryOp
  | binary => BinaryOp
  | declare => Ty × P.Name
  | _ => Unit

variable [Phase.Written P]

def written : (w : Word) → w.Data P → List Char
  | int, value => ' ' :: (toString value.toInt).toList
  | string, value => ' ' :: (Text.quote value).toList
  | bool, value => ' ' :: (toString value).toList
  | var, name | assign, name => ' ' :: (Phase.Written.name name).toList
  | unary, op => ' ' :: op.symbol.toList
  | binary, op => ' ' :: op.symbol.toList
  | declare, (type, name) => ' ' :: (type.name.toList ++ ' ' :: (Phase.Written.name name).toList)
  | unit, _ | block, _ | choice, _ | loop, _ | write, _ | writeln, _ | leave, _ | again, _ | expr, _ => []

/-- The name among the data, if there is one, is a word. -/
def Plain : (w : Word) → w.Data P → Prop
  | var, name | assign, name => IsPlain (Phase.Written.name name).toList
  | declare, (_, name) => IsPlain (Phase.Written.name name).toList
  | _, _ => True

/-- A datum that is written as one word. -/
theorem single_inj {α : Type} {f : α → String} (hf : ∀ {x y}, f x = f y → x = y) {x y : α}
    (hx : IsPlain (f x).toList) (hy : IsPlain (f y).toList) {trail trail' : List Char} (ht : Trails trail)
    (ht' : Trails trail') (h : ' ' :: (f x).toList ++ trail = ' ' :: (f y).toList ++ trail') :
    x = y ∧ trail = trail' := by
  obtain ⟨hword, htrail⟩ := hx.inj hy ht.blank ht'.blank (List.cons.inj h).2
  exact ⟨hf (String.toList_inj.mp hword), htrail⟩

/-- The data behind a word can be told, and told from what follows them. -/
theorem written_inj [P.Legible] (w : Word) {x y : w.Data P} (hx : w.Plain x) (hy : w.Plain y)
    {trail trail' : List Char} (ht : Trails trail) (ht' : Trails trail')
    (h : w.written x ++ trail = w.written y ++ trail') : x = y ∧ trail = trail' := by
  cases w with
  | int =>
      have hvalue : ∀ {v v' : Int64}, toString v.toInt = toString v'.toInt → v = v' :=
        fun h => Int64.toInt_inj.mp (toString_int_injective h)
      exact single_inj hvalue (isPlain_toString_int _) (isPlain_toString_int _) ht ht' h
  | string => exact Text.quote_inj (List.cons.inj h).2
  | bool => exact single_inj toString_bool_injective (isPlain_toString_bool x) (isPlain_toString_bool y) ht ht' h
  | var | assign => exact single_inj Phase.Legible.name_inj hx hy ht ht' h
  | unary => exact single_inj UnaryOp.symbol_inj x.isPlain_symbol y.isPlain_symbol ht ht' h
  | binary => exact single_inj BinaryOp.symbol_inj x.isPlain_symbol y.isPlain_symbol ht ht' h
  | declare =>
      obtain ⟨type, name⟩ := x
      obtain ⟨type', name'⟩ := y
      have h : type.name.toList ++ ' ' :: ((Phase.Written.name name).toList ++ trail) =
          type'.name.toList ++ ' ' :: ((Phase.Written.name name').toList ++ trail') := by
        simpa [written] using h
      obtain ⟨htype, hname⟩ := type.isPlain_name.inj type'.isPlain_name (head?_cons _ _) (head?_cons _ _) h
      obtain ⟨rfl, htrail⟩ := single_inj Phase.Legible.name_inj hx hy ht ht' hname
      rw [Ty.name_inj (String.toList_inj.mp htype)]
      exact ⟨rfl, htrail⟩
  | unit | block | choice | loop | write | writeln | leave | again | expr => exact ⟨rfl, h⟩

theorem head?_written (w : Word) (x : w.Data P) {trail : List Char} (ht : Trails trail) :
    ∀ c ∈ (w.written x ++ trail).head?, c = ' ' := by
  cases w with
  | unit | block | choice | loop | write | writeln | leave | again | expr => exact ht.blank
  | _ => exact head?_cons _ _

/-- What is written behind a word has no line end, so a node takes one line. -/
theorem newline_notMem_written (w : Word) {x : w.Data P} (hx : w.Plain x) : '\n' ∉ w.written x := by
  have hword : ∀ {cs : List Char}, '\n' ∉ cs → '\n' ∉ ' ' :: cs := by
    intro cs h
    simpa using h
  cases w with
  | int => exact hword (isPlain_toString_int _).newline_notMem
  | string => exact hword (Text.newline_notMem_quote x)
  | bool => exact hword (isPlain_toString_bool x).newline_notMem
  | var | assign => exact hword hx.newline_notMem
  | unary => exact hword x.isPlain_symbol.newline_notMem
  | binary => exact hword x.isPlain_symbol.newline_notMem
  | declare =>
      refine hword ?_
      rw [List.mem_append, not_or]
      exact ⟨x.1.isPlain_name.newline_notMem, hword hx.newline_notMem⟩
  | unit | block | choice | loop | write | writeln | leave | again | expr => exact List.not_mem_nil

end Word

/-- What a node's line says in front of its tag or mark: a word, and the data that go with it. -/
structure Label (P : Phase) where
  word : Word
  data : word.Data P

namespace Label

variable {P : Phase} [Phase.Written P]

/-- The line of a label, with what follows the label. -/
def line (l : Label P) (trail : String) : String := l.word.text ++ String.ofList (l.word.written l.data) ++ trail

theorem toList_line (l : Label P) (trail : String) :
    (l.line trail).toList = l.word.text.toList ++ (l.word.written l.data ++ trail.toList) := by
  simp [line]

/-- A line tells its label and what follows the label. -/
theorem line_inj [P.Legible] {l l' : Label P} (hl : l.word.Plain l.data) (hl' : l'.word.Plain l'.data)
    {trail trail' : String} (ht : Trails trail.toList) (ht' : Trails trail'.toList)
    (h : l.line trail = l'.line trail') : l = l' ∧ trail = trail' := by
  rw [← String.toList_inj, toList_line, toList_line] at h
  obtain ⟨word, data⟩ := l
  obtain ⟨word', data'⟩ := l'
  obtain ⟨hword, hdata⟩ := word.isPlain_text.inj word'.isPlain_text (word.head?_written data ht)
    (word'.head?_written data' ht') h
  obtain rfl := Word.text_inj (String.toList_inj.mp hword)
  obtain ⟨rfl, htrail⟩ := word.written_inj hl hl' ht ht' hdata
  exact ⟨rfl, String.toList_inj.mp htrail⟩

end Label

/-! ### Lines of a tree -/

section Trees

variable {P : Phase}

def Expr.label : Expr P → Label P
  | .int value _ => ⟨.int, value⟩
  | .string value _ => ⟨.string, value⟩
  | .bool value _ => ⟨.bool, value⟩
  | .unit _ => ⟨.unit, ()⟩
  | .var name _ => ⟨.var, name⟩
  | .assign name _ _ => ⟨.assign, name⟩
  | .unary op _ _ => ⟨.unary, op⟩
  | .binary op _ _ _ => ⟨.binary, op⟩
  | .block _ _ => ⟨.block, ()⟩
  | .choice _ _ _ _ => ⟨.choice, ()⟩
  | .loop _ _ _ => ⟨.loop, ()⟩

def Stmt.label : Stmt P → Label P
  | .declare type name _ _ => ⟨.declare, (type, name)⟩
  | .write true _ _ _ => ⟨.writeln, ()⟩
  | .write false _ _ _ => ⟨.write, ()⟩
  | .leave _ => ⟨.leave, ()⟩
  | .again _ => ⟨.again, ()⟩
  | .expr _ _ => ⟨.expr, ()⟩

variable [Phase.Written P]

def Expr.under (depth : Nat) : Expr P → List OutlineLine
  | .int _ _ | .string _ _ | .bool _ _ | .unit _ | .var _ _ => []
  | .assign _ value _ => value.outline depth
  | .unary _ operand _ => operand.outline depth
  | .binary _ left right _ => left.outline depth ++ right.outline depth
  | .block body _ => outlineBody depth body
  | .choice cond body others _ => (Branches.orIf cond body others).outline depth
  | .loop cond body _ => cond.outline depth ++ ⟨depth, "Do"⟩ :: outlineBody (depth + 1) body

def Stmt.under (depth : Nat) : Stmt P → List OutlineLine
  | .leave _ | .again _ => []
  | .declare _ _ value _ | .write _ value _ _ | .expr value _ => value.outline depth

theorem Expr.outline_eq (e : Expr P) (depth : Nat) :
    e.outline depth = ⟨depth, e.label.line (Phase.Written.tag e.tag)⟩ :: e.under (depth + 1) := by
  cases e with
  | _ =>
      simp [outline, under, tag, label, Branches.outline, ← String.toList_inj, Label.toList_line, Word.text,
        Word.written]

theorem Stmt.outline_eq (s : Stmt P) (depth : Nat) :
    s.outline depth = ⟨depth, s.label.line (Phase.Written.mark s.mark)⟩ :: s.under (depth + 1) := by
  cases s with
  | write newline =>
      cases newline <;>
        simp [outline, under, mark, label, ← String.toList_inj, Label.toList_line, Word.text, Word.written]
  | _ => simp [outline, under, mark, label, ← String.toList_inj, Label.toList_line, Word.text, Word.written]

mutual

/-- The names in an expression are words, and every printed value has the tag that is printed. -/
def Expr.Legible : Expr P → Prop
  | .int _ _ | .string _ _ | .bool _ _ | .unit _ => True
  | .var name _ => IsPlain (Phase.Written.name name).toList
  | .assign name value _ => IsPlain (Phase.Written.name name).toList ∧ value.Legible
  | .unary _ operand _ => operand.Legible
  | .binary _ left right _ => left.Legible ∧ right.Legible
  | .block body _ => Body.Legible body
  | .choice cond body others _ => cond.Legible ∧ Body.Legible body ∧ others.Legible
  | .loop cond body _ => cond.Legible ∧ Body.Legible body

/-- The later branches of a choice are legible. -/
def Branches.Legible : Branches P → Prop
  | .done => True
  | .otherwise body => Body.Legible body
  | .orIf cond body others => cond.Legible ∧ Body.Legible body ∧ others.Legible

def Body.Legible : List (Stmt P) → Prop
  | [] => True
  | s :: rest => s.Legible ∧ Body.Legible rest

def Stmt.Legible : Stmt P → Prop
  | .declare _ name init _ => IsPlain (Phase.Written.name name).toList ∧ init.Legible
  | .write _ value shown _ => value.Legible ∧ shown = value.tag
  | .leave _ | .again _ => True
  | .expr value _ => value.Legible

end

theorem Expr.Legible.label {e : Expr P} (h : e.Legible) : e.label.word.Plain e.label.data := by
  cases e with
  | var => exact h
  | assign =>
      exact h.1
  | _ => trivial

theorem Stmt.Legible.label {s : Stmt P} (h : s.Legible) : s.label.word.Plain s.label.data := by
  cases s with
  | declare =>
      exact h.1
  | write newline => cases newline <;> trivial
  | _ => trivial

end Trees

/-! ### Reading lines -/

/-- Some lines are empty or begin with a line of smaller depth. -/
def Above (depth : Nat) (lines : List OutlineLine) : Prop := ∀ l ∈ lines.head?, l.depth < depth

theorem Above.mono {depth depth' : Nat} (hle : depth ≤ depth') {lines : List OutlineLine} (h : Above depth lines) :
    Above depth' lines :=
  fun l hl => Nat.lt_of_lt_of_le (h l hl) hle

theorem Above.append {depth : Nat} {lines lines' : List OutlineLine} (h : Above depth lines)
    (h' : Above depth lines') : Above depth (lines ++ lines') := by
  cases lines with
  | nil => exact h'
  | cons => exact h

theorem above_nil (depth : Nat) : Above depth [] :=
  fun _ hl => absurd hl (Option.not_mem_none _)

theorem above_cons (depth : Nat) (text : String) (lines : List OutlineLine) :
    Above (depth + 1) (⟨depth, text⟩ :: lines) := by
  rintro _ ⟨⟩
  exact Nat.lt_succ_self depth

/-- Two lists of lines, with lines of smaller depth behind them, can be told from these, and agree only if what
they stand for is the same. -/
def Tell (depth : Nat) (lines lines' : List OutlineLine) (same : Prop) : Prop :=
  ∀ rest rest', Above depth rest → Above depth rest' → lines ++ rest = lines' ++ rest' → same ∧ rest = rest'

namespace Tell

variable {depth outer : Nat} {x x' y y' : List OutlineLine} {A B : Prop}

theorem nil (h : A) : Tell depth [] [] A :=
  fun _ _ _ _ heq => ⟨h, heq⟩

theorem nil_left {l : OutlineLine} (h : depth ≤ l.depth) : Tell depth [] (l :: x) A := by
  rintro _ rest' hrest - rfl
  exact absurd (hrest l rfl) (Nat.not_lt.mpr h)

theorem nil_right {l : OutlineLine} (h : depth ≤ l.depth) : Tell depth (l :: x) [] A := by
  rintro rest _ - hrest' rfl
  exact absurd (hrest' l rfl) (Nat.not_lt.mpr h)

theorem cons {l l' : OutlineLine} (h : l = l' → Tell depth x x' A) : Tell depth (l :: x) (l' :: x') A := by
  intro rest rest' hrest hrest' heq
  obtain ⟨hline, heq⟩ := List.cons.inj heq
  exact h hline rest rest' hrest hrest' heq

theorem below (h : Tell depth x x' A) (l : OutlineLine) : Tell depth (l :: x) (l :: x') A :=
  .cons fun _ => h

theorem imp (h : Tell depth x x' A) (himp : A → B) : Tell depth x x' B := by
  intro rest rest' hrest hrest' heq
  obtain ⟨hsame, heq⟩ := h rest rest' hrest hrest' heq
  exact ⟨himp hsame, heq⟩

theorem mono (h : Tell depth x x' A) (hle : outer ≤ depth) : Tell outer x x' A :=
  fun rest rest' hrest hrest' => h rest rest' (hrest.mono hle) (hrest'.mono hle)

/-- What stands at smaller depth closes what stands in front of it. -/
theorem append (hx : Tell depth x x' A) (hy : Tell outer y y' B) (hle : outer ≤ depth) (habove : Above depth y)
    (habove' : Above depth y') : Tell outer (x ++ y) (x' ++ y') (A ∧ B) := by
  intro rest rest' hrest hrest' heq
  rw [List.append_assoc, List.append_assoc] at heq
  obtain ⟨hA, heq⟩ := hx _ _ (habove.append (hrest.mono hle)) (habove'.append (hrest'.mono hle)) heq
  obtain ⟨hB, heq⟩ := hy rest rest' hrest hrest' heq
  exact ⟨⟨hA, hB⟩, heq⟩

end Tell

section Reading

variable {P : Phase} [Phase.Written P]

theorem Expr.above_outline (e : Expr P) (depth : Nat) : Above (depth + 1) (e.outline depth) := by
  rw [e.outline_eq]
  exact above_cons _ _ _

theorem Body.above_outline (body : Body P) (depth : Nat) : Above (depth + 1) (outlineBody depth body) := by
  cases body with
  | nil => exact above_nil _
  | cons s rest =>
      rw [outlineBody, s.outline_eq]
      exact above_cons _ _ _

theorem Branches.above_outline (b : Branches P) (depth : Nat) : Above (depth + 1) (b.outline depth) := by
  cases b with
  | done => exact above_nil _
  | otherwise body =>
      rw [outline]
      exact above_cons _ _ _
  | orIf cond body others =>
      rw [outline]
      exact above_cons _ _ _

/-- The lines of a condition, its body and the branches behind them. -/
theorem Branches.tell_arm {cond cond' : Expr P} {body body' : Body P} {others others' : Branches P} {depth : Nat}
    (hcond : Tell (depth + 2) (cond.outline (depth + 1)) (cond'.outline (depth + 1)) (cond = cond'))
    (hbody : Tell (depth + 1) (outlineBody (depth + 1) body) (outlineBody (depth + 1) body') (body = body'))
    (hothers : Tell depth (others.outline depth) (others'.outline depth) (others = others')) :
    Tell depth ((orIf cond body others).outline depth) ((orIf cond' body' others').outline depth)
      ((cond = cond' ∧ body = body') ∧ others = others') := by
  rw [outline, outline]
  have harm := (hcond.below ⟨depth, "Cond"⟩).append (hbody.below ⟨depth, "Then"⟩) (Nat.le_succ _)
    ((above_cons depth "Then" _).mono (Nat.le_succ _)) ((above_cons depth "Then" _).mono (Nat.le_succ _))
  exact harm.append hothers (Nat.le_succ depth) (others.above_outline depth) (others'.above_outline depth)

theorem Expr.tell_of_under [P.Legible] {e e' : Expr P} (he : e.Legible) (he' : e'.Legible) {depth : Nat}
    {A : Prop}
    (h : e.label = e'.label → e.tag = e'.tag → Tell (depth + 1) (e.under (depth + 1)) (e'.under (depth + 1)) A) :
    Tell (depth + 1) (e.outline depth) (e'.outline depth) A := by
  rw [e.outline_eq, e'.outline_eq]
  refine .cons fun hline => ?_
  obtain ⟨hlabel, htag⟩ := Label.line_inj he.label he'.label (Phase.Legible.tag_trails _)
    (Phase.Legible.tag_trails _) (OutlineLine.mk.inj hline).2
  exact h hlabel (Phase.Legible.tag_inj htag)

theorem Stmt.tell_of_under [P.Legible] {s s' : Stmt P} (hs : s.Legible) (hs' : s'.Legible) {depth : Nat}
    {A : Prop}
    (h : s.label = s'.label → s.mark = s'.mark → Tell (depth + 1) (s.under (depth + 1)) (s'.under (depth + 1)) A) :
    Tell (depth + 1) (s.outline depth) (s'.outline depth) A := by
  rw [s.outline_eq, s'.outline_eq]
  refine .cons fun hline => ?_
  obtain ⟨hlabel, hmark⟩ := Label.line_inj hs.label hs'.label (Phase.Legible.mark_trails _)
    (Phase.Legible.mark_trails _) (OutlineLine.mk.inj hline).2
  exact h hlabel (Phase.Legible.mark_inj hmark)

mutual

/-- The lines of an expression tell it, by recursion on the expression: each of its lines closes the one before. -/
theorem Expr.tell [P.Legible] : ∀ (e e' : Expr P) (depth : Nat), e.Legible → e'.Legible →
    Tell (depth + 1) (e.outline depth) (e'.outline depth) (e = e')
  | .int _ _, e', _, he, he' | .string _ _, e', _, he, he' | .bool _ _, e', _, he, he' | .unit _, e', _, he, he'
  | .var _ _, e', _, he, he' => Expr.tell_of_under he he' fun hlabel htag => by
      cases e' <;> cases hlabel
      cases htag
      exact .nil rfl
  | .assign name value t, e', depth, he, he' => Expr.tell_of_under he he' fun hlabel htag => by
      cases e' <;> cases hlabel
      case assign value' _ =>
        cases htag
        exact ((value.tell value' (depth + 1) he.2 he'.2).mono (Nat.le_succ _)).imp (congrArg (Expr.assign name · t))
  | .unary op operand t, e', depth, he, he' => Expr.tell_of_under he he' fun hlabel htag => by
      cases e' <;> cases hlabel
      case unary operand' _ =>
        cases htag
        exact ((operand.tell operand' (depth + 1) he he').mono (Nat.le_succ _)).imp (congrArg (Expr.unary op · t))
  | .binary op left right t, e', depth, he, he' => Expr.tell_of_under he he' fun hlabel htag => by
      cases e' <;> cases hlabel
      case binary left' right' _ =>
        cases htag
        have hleft := left.tell left' (depth + 1) he.1 he'.1
        have hright := right.tell right' (depth + 1) he.2 he'.2
        have hboth := hleft.append hright (Nat.le_refl _) (right.above_outline _) (right'.above_outline _)
        refine (hboth.mono (Nat.le_succ _)).imp ?_
        rintro ⟨rfl, rfl⟩
        rfl
  | .block body t, e', depth, he, he' => Expr.tell_of_under he he' fun hlabel htag => by
      cases e' <;> cases hlabel
      case block body' _ =>
        cases htag
        exact (Body.tell body body' (depth + 1) he he').imp (congrArg (Expr.block · t))
  | .choice cond body others t, e', depth, he, he' => Expr.tell_of_under he he' fun hlabel htag => by
      cases e' <;> cases hlabel
      case choice cond' body' others' _ =>
        cases htag
        refine (Branches.tell_arm (cond.tell cond' (depth + 2) he.1 he'.1)
          (Body.tell body body' (depth + 2) he.2.1 he'.2.1)
          (others.tell others' (depth + 1) he.2.2 he'.2.2)).imp ?_
        rintro ⟨⟨rfl, rfl⟩, rfl⟩
        rfl
  | .loop cond body t, e', depth, he, he' => Expr.tell_of_under he he' fun hlabel htag => by
      cases e' <;> cases hlabel
      case loop cond' body' _ =>
        cases htag
        have hcond := cond.tell cond' (depth + 1) he.1 he'.1
        have hbody := Body.tell body body' (depth + 2) he.2 he'.2
        have hboth := hcond.append (hbody.below ⟨depth + 1, "Do"⟩) (Nat.le_refl _) (above_cons _ _ _)
          (above_cons _ _ _)
        refine (hboth.mono (Nat.le_succ _)).imp ?_
        rintro ⟨rfl, rfl⟩
        rfl
termination_by structural e => e

/-- The later branches can be told from their lines, which end where the lines are less indented. -/
theorem Branches.tell [P.Legible] : ∀ (b b' : Branches P) (depth : Nat), b.Legible → b'.Legible →
    Tell depth (b.outline depth) (b'.outline depth) (b = b')
  | .done, b', depth, _, _ => by
      cases b' with
      | done => exact .nil rfl
      | otherwise => exact .nil_left (Nat.le_refl _)
      | orIf => exact .nil_left (Nat.le_refl _)
  | .otherwise body, b', depth, hb, hb' => by
      cases b' with
      | done => exact .nil_right (Nat.le_refl _)
      | otherwise body' =>
          exact (((Body.tell body body' (depth + 1) hb hb').mono (Nat.le_succ _)).below ⟨depth, "Else"⟩).imp
            (congrArg Branches.otherwise)
      | orIf => exact .cons fun hline => absurd (OutlineLine.mk.inj hline).2 (by decide)
  | .orIf cond body others, b', depth, hb, hb' => by
      cases b' with
      | done => exact .nil_right (Nat.le_refl _)
      | otherwise => exact .cons fun hline => absurd (OutlineLine.mk.inj hline).2 (by decide)
      | orIf cond' body' others' =>
          refine (Branches.tell_arm (cond.tell cond' (depth + 1) hb.1 hb'.1)
            (Body.tell body body' (depth + 1) hb.2.1 hb'.2.1)
            (others.tell others' depth hb.2.2 hb'.2.2)).imp ?_
          rintro ⟨⟨rfl, rfl⟩, rfl⟩
          rfl
termination_by structural b => b

/-- A body can be told from its lines: each statement ends where the next line is no deeper than its first one. -/
theorem Body.tell [P.Legible] : ∀ (body body' : List (Stmt P)) (depth : Nat), Body.Legible body →
    Body.Legible body' → Tell depth (outlineBody depth body) (outlineBody depth body') (body = body')
  | [], body', depth, _, _ => by
      cases body' with
      | nil => exact .nil rfl
      | cons s' rest' =>
          rw [outlineBody, outlineBody, s'.outline_eq]
          exact .nil_left (Nat.le_refl _)
  | s :: rest, body', depth, hbody, hbody' => by
      cases body' with
      | nil =>
          rw [outlineBody, outlineBody, s.outline_eq]
          exact .nil_right (Nat.le_refl _)
      | cons s' rest' =>
          rw [outlineBody, outlineBody]
          have hfirst := s.tell s' depth hbody.1 hbody'.1
          have hrest := Body.tell rest rest' depth hbody.2 hbody'.2
          refine (hfirst.append hrest (Nat.le_succ _) (Body.above_outline rest _) (Body.above_outline rest' _)).imp ?_
          rintro ⟨rfl, rfl⟩
          rfl
termination_by structural body => body

/-- A statement can be told from its lines, the first of which is its label. -/
theorem Stmt.tell [P.Legible] : ∀ (s s' : Stmt P) (depth : Nat), s.Legible → s'.Legible →
    Tell (depth + 1) (s.outline depth) (s'.outline depth) (s = s')
  | .declare type name init m, s', depth, hs, hs' => Stmt.tell_of_under hs hs' fun hlabel hmark => by
      rcases s' with ⟨_, _, init', _⟩ | ⟨_ | _, _⟩ | _ | _ | _ <;> cases hlabel
      cases hmark
      exact ((init.tell init' (depth + 1) hs.2 hs'.2).mono (Nat.le_succ _)).imp
        (congrArg (Stmt.declare type name · m))
  | .write newline value shown m, s', depth, hs, hs' => Stmt.tell_of_under hs hs' fun hlabel hmark => by
      obtain ⟨value', shown', rfl⟩ : ∃ value' shown', s' = .write newline value' shown' m := by
        cases newline <;> rcases s' with _ | ⟨_ | _, value', shown', _⟩ | _ | _ | _ <;> cases hlabel <;> cases hmark
        · exact ⟨value', shown', rfl⟩
        · exact ⟨value', shown', rfl⟩
      obtain ⟨hvalue, rfl⟩ := hs
      obtain ⟨hvalue', rfl⟩ := hs'
      refine ((value.tell value' (depth + 1) hvalue hvalue').mono (Nat.le_succ _)).imp ?_
      rintro rfl
      rfl
  | .leave m, s', depth, hs, hs' => Stmt.tell_of_under hs hs' fun hlabel hmark => by
      rcases s' with _ | ⟨_ | _, _⟩ | _ | _ | _ <;> cases hlabel
      exact .nil (congrArg Stmt.leave hmark)
  | .again m, s', depth, hs, hs' => Stmt.tell_of_under hs hs' fun hlabel hmark => by
      rcases s' with _ | ⟨_ | _, _⟩ | _ | _ | _ <;> cases hlabel
      exact .nil (congrArg Stmt.again hmark)
  | .expr value m, s', depth, hs, hs' => Stmt.tell_of_under hs hs' fun hlabel hmark => by
      rcases s' with _ | ⟨_ | _, _⟩ | _ | _ | ⟨value', _⟩ <;> cases hlabel
      cases hmark
      exact ((value.tell value' (depth + 1) hs hs').mono (Nat.le_succ _)).imp (congrArg (Stmt.expr · m))
termination_by structural s => s

end

end Reading

/-- A line whose text does not begin with a blank, so that its indentation shows its depth, and has no line end. -/
structure OutlineLine.Sound (l : OutlineLine) : Prop where
  head : ∀ c ∈ l.text.toList.head?, c ≠ ' '
  line : '\n' ∉ l.text.toList

theorem toList_pushn (s : String) (c : Char) (n : Nat) :
    (s.pushn c n).toList = s.toList ++ List.replicate n c := by
  induction n with
  | zero => simp [String.pushn, Nat.repeat]
  | succ n ih =>
      rw [String.pushn, Nat.repeat, ← String.pushn, String.toList_push, ih, List.append_assoc, List.replicate_succ']

theorem OutlineLine.toList_render (l : OutlineLine) :
    l.render.toList = List.replicate (2 * l.depth) ' ' ++ (l.text.toList ++ ['\n']) := by
  simp [render, toList_pushn]

/-- A line of text shows its depth and its text, whatever follows it. -/
theorem OutlineLine.render_inj {l l' : OutlineLine} (hl : l.Sound) (hl' : l'.Sound) {rest rest' : List Char}
    (h : l.render.toList ++ rest = l'.render.toList ++ rest') : l = l' ∧ rest = rest' := by
  have hstart : ∀ {l : OutlineLine} {rest : List Char}, l.Sound →
      ∀ c ∈ (l.text.toList ++ '\n' :: rest).head?, ¬c = ' ' := by
    intro l rest hl c hc
    cases htext : l.text.toList with
    | nil =>
        rw [htext] at hc
        obtain rfl : '\n' = c := Option.some.inj hc
        decide
    | cons d ds =>
        rw [htext] at hc
        exact hl.head c (by rw [htext]; exact hc)
  rw [toList_render, toList_render, List.append_assoc, List.append_assoc, List.append_assoc, List.append_assoc] at h
  obtain ⟨hindent, htext⟩ := append_inj_of_stop (p := (· = ' ')) (fun c hc => (List.mem_replicate.mp hc).2)
    (fun c hc => (List.mem_replicate.mp hc).2) (hstart hl) (hstart hl') h
  obtain ⟨htext, hrest⟩ := append_inj_of_stop (p := (· ≠ '\n')) (fun c hc hend => hl.line (hend ▸ hc))
    (fun c hc hend => hl'.line (hend ▸ hc)) (fun c hc => not_not.mpr (head?_cons _ _ c hc))
    (fun c hc => not_not.mpr (head?_cons _ _ c hc)) htext
  have hdepth : l.depth = l'.depth := by
    have hlength := congrArg List.length hindent
    rw [List.length_replicate, List.length_replicate] at hlength
    omega
  refine ⟨?_, (List.cons.inj hrest).2⟩
  cases l
  cases l'
  rw [mk.injEq]
  exact ⟨hdepth, String.toList_inj.mp htext⟩

/-- Pieces of text that can be told from what follows them can be told from each other when they are joined. -/
theorem join_map_inj {α : Type} {render : α → String} {p : α → Prop} (hne : ∀ a, render a ≠ "")
    (hrender : ∀ {a b : α}, p a → p b → ∀ {rest rest' : List Char},
      (render a).toList ++ rest = (render b).toList ++ rest' → a = b ∧ rest = rest')
    {xs ys : List α} (hxs : ∀ a ∈ xs, p a) (hys : ∀ a ∈ ys, p a)
    (heq : String.join (xs.map render) = String.join (ys.map render)) : xs = ys := by
  have hempty : ∀ {a xs}, String.join ([] : List String) ≠ String.join ((a :: xs).map render) := by
    intro a xs heq
    have hlist := congrArg String.toList heq
    rw [List.map_cons, String.join_cons, String.toList_append] at hlist
    exact hne a (String.toList_eq_nil_iff.mp (List.append_eq_nil_iff.mp hlist.symm).1)
  induction xs generalizing ys with
  | nil =>
      cases ys with
      | nil => rfl
      | cons b ys => exact absurd heq hempty
  | cons a xs ih =>
      cases ys with
      | nil => exact absurd heq.symm hempty
      | cons b ys =>
          rw [List.map_cons, List.map_cons, String.join_cons, String.join_cons, ← String.toList_inj,
            String.toList_append, String.toList_append] at heq
          rw [List.forall_mem_cons] at hxs hys
          obtain ⟨rfl, hrest⟩ := hrender hxs.1 hys.1 heq
          rw [ih hxs.2 hys.2 (String.toList_inj.mp hrest)]

theorem OutlineLine.join_render_inj {lines lines' : List OutlineLine} (h : ∀ l ∈ lines, l.Sound)
    (h' : ∀ l ∈ lines', l.Sound)
    (heq : String.join (lines.map render) = String.join (lines'.map render)) : lines = lines' := by
  refine join_map_inj (fun l hl => ?_) render_inj h h' heq
  have hlist := congrArg String.toList hl
  rw [toList_render] at hlist
  simp at hlist

section Sound

variable {P : Phase} [Phase.Written P]

/-- The line of a label shows its depth and has no line end. -/
theorem Label.sound_line {l : Label P} (hl : l.word.Plain l.data) {trail : String} (ht : Trails trail.toList)
    (depth : Nat) : OutlineLine.Sound ⟨depth, l.line trail⟩ := by
  constructor
  · intro c hc
    rw [toList_line] at hc
    cases hword : l.word.text.toList with
    | nil => exact absurd hword (by cases l.word <;> simp [Word.text])
    | cons d ds =>
        rw [hword] at hc
        obtain rfl := head?_cons _ _ c hc
        exact (l.word.isPlain_text c (by rw [hword]; exact List.mem_cons_self)).1
  · rw [toList_line, List.mem_append, List.mem_append, not_or, not_or]
    exact ⟨l.word.isPlain_text.newline_notMem, l.word.newline_notMem_written hl, ht.line⟩

theorem Expr.sound_of_under [P.Legible] {e : Expr P} (he : e.Legible) {depth : Nat}
    (h : ∀ l ∈ e.under (depth + 1), l.Sound) : ∀ l ∈ e.outline depth, l.Sound := by
  rw [e.outline_eq, List.forall_mem_cons]
  exact ⟨Label.sound_line he.label (Phase.Legible.tag_trails _) depth, h⟩

theorem Stmt.sound_of_under [P.Legible] {s : Stmt P} (hs : s.Legible) {depth : Nat}
    (h : ∀ l ∈ s.under (depth + 1), l.Sound) : ∀ l ∈ s.outline depth, l.Sound := by
  rw [s.outline_eq, List.forall_mem_cons]
  exact ⟨Label.sound_line hs.label (Phase.Legible.mark_trails _) depth, h⟩

/-- The lines that name a part of a node. -/
theorem sound_title (depth : Nat) {text : String} (h : text ∈ ["Cond", "Then", "Else", "Do"]) :
    OutlineLine.Sound ⟨depth, text⟩ := by
  simp only [List.mem_cons, List.not_mem_nil, or_false] at h
  rcases h with rfl | rfl | rfl | rfl
  all_goals exact ⟨by simp, by simp⟩

theorem Branches.sound_arm {cond : Expr P} {body : Body P} {others : Branches P} {depth : Nat}
    (hcond : ∀ l ∈ cond.outline (depth + 1), l.Sound) (hbody : ∀ l ∈ outlineBody (depth + 1) body, l.Sound)
    (hothers : ∀ l ∈ others.outline depth, l.Sound) : ∀ l ∈ (orIf cond body others).outline depth, l.Sound := by
  rw [outline, List.forall_mem_append, List.forall_mem_append, List.forall_mem_cons, List.forall_mem_cons]
  exact ⟨⟨⟨sound_title depth (by simp), hcond⟩, sound_title depth (by simp), hbody⟩, hothers⟩

mutual

/-- Every line of the outline of an expression shows its depth and has no line end. -/
theorem Expr.sound [P.Legible] : ∀ (e : Expr P) (depth : Nat), e.Legible → ∀ l ∈ e.outline depth, l.Sound
  | .int _ _, _, he | .string _ _, _, he | .bool _ _, _, he | .unit _, _, he | .var _ _, _, he =>
      Expr.sound_of_under he (List.forall_mem_nil _)
  | .assign _ value _, depth, he => Expr.sound_of_under he (value.sound (depth + 1) he.2)
  | .unary _ operand _, depth, he => Expr.sound_of_under he (operand.sound (depth + 1) he)
  | .binary _ left right _, depth, he =>
      Expr.sound_of_under he (List.forall_mem_append.mpr
        ⟨left.sound (depth + 1) he.1, right.sound (depth + 1) he.2⟩)
  | .block body _, depth, he => Expr.sound_of_under he (Body.sound body (depth + 1) he)
  | .choice cond body others _, depth, he =>
      Expr.sound_of_under he (Branches.sound_arm (cond.sound (depth + 2) he.1) (Body.sound body (depth + 2) he.2.1)
        (others.sound (depth + 1) he.2.2))
  | .loop cond body _, depth, he =>
      Expr.sound_of_under he (List.forall_mem_append.mpr ⟨cond.sound (depth + 1) he.1,
        List.forall_mem_cons.mpr ⟨sound_title _ (by simp), Body.sound body (depth + 2) he.2⟩⟩)

theorem Branches.sound [P.Legible] : ∀ (b : Branches P) (depth : Nat), b.Legible →
    ∀ l ∈ b.outline depth, l.Sound
  | .done, _, _ => List.forall_mem_nil _
  | .otherwise body, depth, hb =>
      List.forall_mem_cons.mpr ⟨sound_title depth (by simp), Body.sound body (depth + 1) hb⟩
  | .orIf cond body others, depth, hb =>
      Branches.sound_arm (cond.sound (depth + 1) hb.1) (Body.sound body (depth + 1) hb.2.1)
        (others.sound depth hb.2.2)

theorem Body.sound [P.Legible] : ∀ (body : List (Stmt P)) (depth : Nat), Body.Legible body →
    ∀ l ∈ outlineBody depth body, l.Sound
  | [], _, _ => List.forall_mem_nil _
  | s :: rest, depth, hbody => by
      rw [outlineBody]
      exact List.forall_mem_append.mpr ⟨s.sound depth hbody.1, Body.sound rest depth hbody.2⟩

theorem Stmt.sound [P.Legible] : ∀ (s : Stmt P) (depth : Nat), s.Legible → ∀ l ∈ s.outline depth, l.Sound
  | .leave _, _, hs | .again _, _, hs => Stmt.sound_of_under hs (List.forall_mem_nil _)
  | .declare _ _ value _, depth, hs => Stmt.sound_of_under hs (value.sound (depth + 1) hs.2)
  | .write _ value _ _, depth, hs => Stmt.sound_of_under hs (value.sound (depth + 1) hs.1)
  | .expr value _, depth, hs => Stmt.sound_of_under hs (value.sound (depth + 1) hs)

end

/-- The text of an outline determines the program, if the program is legible. -/
theorem eq_of_dump_eq [P.Legible] {program program' : Body P} (h : Body.Legible program) (h' : Body.Legible program')
    (heq : dump program = dump program') : program = program' := by
  have hlines : outlineBody 0 program = outlineBody 0 program' :=
    OutlineLine.join_render_inj (Body.sound program 0 h) (Body.sound program' 0 h') heq
  exact (Body.tell program program' 0 h h' [] [] (above_nil 0) (above_nil 0) (by rw [hlines])).1

end Sound

end BlockLang

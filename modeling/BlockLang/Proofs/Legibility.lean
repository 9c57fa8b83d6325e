import BlockLang.Proofs.Checking
import BlockLang.Proofs.Coverage
import BlockLang.Proofs.Descent
import BlockLang.Proofs.Outlines
import BlockLang.Proofs.Resolution

/-! Every tree of a compilation is legible, so that its outline determines it. A name in a parsed tree is the text of
a token and holds no blank. Checking keeps the names and gives a printed value the tag that is printed; resolving
keeps the tags and puts slots in place of the names. The outline of a parsed tree shows of a statement's first token
only where it stands, and determines the tree but for the rest of these tokens. -/

namespace BlockLang

/-- Names as written, no tags, and statements marked with a line and a column. -/
abbrev Phase.located : Phase := ⟨String, Unit, Int × Int⟩

instance : Phase.Written .located where
  name := id
  tag _ := ""
  mark place := " @" ++ toString place.1 ++ ":" ++ toString place.2

mutual

/-- An expression in which statements are marked with the places of their first tokens. -/
def Expr.located : Expr .parsed → Expr .located
  | .int value _ => .int value ()
  | .string value _ => .string value ()
  | .bool value _ => .bool value ()
  | .unit _ => .unit ()
  | .var name _ => .var name ()
  | .assign name value _ => .assign name value.located ()
  | .unary op operand _ => .unary op operand.located ()
  | .binary op left right _ => .binary op left.located right.located ()
  | .block body _ => .block (Body.located body) ()
  | .choice cond body others _ => .choice cond.located (Body.located body) others.located ()
  | .loop cond body _ => .loop cond.located (Body.located body) ()

/-- The later branches of a choice with places in place of tokens. -/
def Branches.located : Branches .parsed → Branches .located
  | .done => .done
  | .otherwise body => .otherwise (Body.located body)
  | .orIf cond body others => .orIf cond.located (Body.located body) others.located

/-- A body with places in place of tokens. -/
def Body.located : List (Stmt .parsed) → List (Stmt .located)
  | [] => []
  | s :: rest => s.located :: Body.located rest

/-- A statement with the place of its first token. -/
def Stmt.located : Stmt .parsed → Stmt .located
  | .declare type name init t => .declare type name init.located (t.line, t.column)
  | .write newline value _ t => .write newline value.located () (t.line, t.column)
  | .leave t => .leave (t.line, t.column)
  | .again t => .again (t.line, t.column)
  | .expr value t => .expr value.located (t.line, t.column)

end

mutual

/-- An outline shows no more of a token than its place. -/
theorem Expr.outline_located : ∀ (e : Expr .parsed) (depth : Nat), e.located.outline depth = e.outline depth
  | .int _ _, _ | .string _ _, _ | .bool _ _, _ | .unit _, _ | .var _ _, _ => rfl
  | .assign name value _, depth => by
      rw [Expr.located, Expr.outline, Expr.outline, value.outline_located]
      rfl
  | .unary op operand _, depth => by
      rw [Expr.located, Expr.outline, Expr.outline, operand.outline_located]
      rfl
  | .binary op left right _, depth => by
      rw [Expr.located, Expr.outline, Expr.outline, left.outline_located, right.outline_located]
      rfl
  | .block body _, depth => by
      rw [Expr.located, Expr.outline, Expr.outline, Body.outline_located]
      rfl
  | .choice cond body others _, depth => by
      rw [Expr.located, Expr.outline, Expr.outline, cond.outline_located, Body.outline_located,
        others.outline_located]
      rfl
  | .loop cond body _, depth => by
      rw [Expr.located, Expr.outline, Expr.outline, cond.outline_located, Body.outline_located]
      rfl

theorem Branches.outline_located : ∀ (b : Branches .parsed) (depth : Nat),
    b.located.outline depth = b.outline depth
  | .done, _ => rfl
  | .otherwise body, depth => by
      rw [Branches.located, Branches.outline, Branches.outline, Body.outline_located]
  | .orIf cond body others, depth => by
      rw [Branches.located, Branches.outline, Branches.outline, cond.outline_located, Body.outline_located,
        others.outline_located]

theorem Body.outline_located : ∀ (body : List (Stmt .parsed)) (depth : Nat),
    outlineBody depth (Body.located body) = outlineBody depth body
  | [], _ => rfl
  | s :: rest, depth => by
      rw [Body.located, outlineBody, outlineBody, s.outline_located, Body.outline_located]

theorem Stmt.outline_located : ∀ (s : Stmt .parsed) (depth : Nat), s.located.outline depth = s.outline depth
  | .leave _, _ | .again _, _ => rfl
  | .declare _ _ init _, depth => by
      rw [Stmt.located, Stmt.outline, Stmt.outline, init.outline_located]
      rfl
  | .write _ value _ _, depth => by
      rw [Stmt.located, Stmt.outline, Stmt.outline, value.outline_located]
      rfl
  | .expr value _, depth => by
      rw [Stmt.located, Stmt.outline, Stmt.outline, value.outline_located]
      rfl

end

theorem dump_located (program : Body .parsed) : dump (Body.located program) = dump program := by
  rw [dump, dump, Body.outline_located]

theorem toList_place (line column : Int) : (" @" ++ toString line ++ ":" ++ toString column).toList =
    ' ' :: '@' :: ((toString line).toList ++ ':' :: (toString column).toList) := by
  simp

/-- A line and a column can be told from each other, as no numeral has a colon. -/
theorem place_inj {place place' : Int × Int}
    (h : " @" ++ toString place.1 ++ ":" ++ toString place.2 =
      " @" ++ toString place'.1 ++ ":" ++ toString place'.2) : place = place' := by
  have hnumeral : ∀ n : Int, ∀ c ∈ (toString n).toList, c ≠ ':' :=
    fun n c hc => ne_of_mem_toString_int hc (by decide) (by decide)
  rw [← String.toList_inj, toList_place, toList_place] at h
  have hplace := (List.cons.inj (List.cons.inj h).2).2
  obtain ⟨hline, hcolumn⟩ := append_inj_of_stop (p := (· ≠ ':')) (hnumeral _) (hnumeral _)
    (fun c hc => not_not.mpr (head?_cons _ _ c hc)) (fun c hc => not_not.mpr (head?_cons _ _ c hc)) hplace
  apply Prod.ext
  · exact toString_int_injective (String.toList_inj.mp hline)
  · exact toString_int_injective (String.toList_inj.mp (List.cons.inj hcolumn).2)

/-- The place of a statement may follow a word: it begins with a blank and has no line end. -/
theorem trails_place (place : Int × Int) :
    Trails (" @" ++ toString place.1 ++ ":" ++ toString place.2).toList := by
  rw [toList_place]
  constructor
  · exact head?_cons _ _
  · have hline := (isPlain_toString_int place.1).newline_notMem
    have hcolumn := (isPlain_toString_int place.2).newline_notMem
    rw [List.mem_cons, List.mem_cons, List.mem_append, List.mem_cons]
    rintro (h | h | h | h | h)
    · exact absurd h (by decide)
    · exact absurd h (by decide)
    · exact hline h
    · exact absurd h (by decide)
    · exact hcolumn h

instance : Phase.Legible .located where
  name_inj h := h
  tag_inj _ := rfl
  mark_inj := place_inj
  tag_trails _ := ⟨fun _ hc => absurd hc (Option.not_mem_none _), List.not_mem_nil⟩
  mark_trails := trails_place

/-! ### Parsed trees -/

/-- The text of a name token is a word. -/
def Token.Worded (t : Token) : Prop := t.kind = .ident → IsPlain t.text.toList

namespace Scan

variable {settings : Settings} {file : Int}

theorem isPlain_of_isNamePart {cs : List Char} (h : ∀ c ∈ cs, isNamePart c = true) : IsPlain cs := by
  have hblank : isNamePart ' ' = false := by decide +kernel
  have hline : isNamePart '\n' = false := by decide +kernel
  intro c hc
  constructor
  · rintro rfl
    exact Bool.false_ne_true (hblank.symm.trans (h _ hc))
  · rintro rfl
    exact Bool.false_ne_true (hline.symm.trans (h _ hc))

/-- The names among the tokens of a scan are words. -/
theorem worded_of_tokenize {source : List Char} {tokens : List Token}
    (h : (tokenize settings file source).2 = .ok tokens) : ∀ t ∈ tokens, t.Worded := by
  have htable : ∀ kind ∈ TokenKind.keywords.map Prod.snd, kind ≠ .ident := by decide
  intro t ht hident
  obtain ⟨cursor, hstep⟩ := next_of_tokenize h t ht
  rcases next_cases hstep with ⟨start, cs, hword⟩ | ⟨start, cs, hnumber⟩ | ⟨hkind, -⟩
  · rcases word_cases hword with hkeyword | ⟨-, htext⟩
    · exact absurd hident (htable _ hkeyword)
    · rw [htext, String.toList_ofList]
      exact isPlain_of_isNamePart fun c hc => List.mem_takeWhile_imp hc
  · rw [(number_cases hnumber).1] at hident
    cases hident
  · exact absurd hident hkind

end Scan

namespace Grammar

/-- The tree of a phrase is legible once places stand for tokens. -/
def Category.Legible : (c : Category) → c.Tree → Prop
  | .expression, e | .operation _, e | .operand, e | .primary, e => e.located.Legible
  | .branches, b => b.located.Legible
  | .block, statements | .body, statements => Body.Legible (Body.located statements)
  | .statement, s => s.located.Legible

/-- A tree takes its names from the tokens of its phrase. -/
theorem Derives.legible {c : Category} {w : List Token} {tree : c.Tree} (h : Derives c w tree)
    (hw : ∀ t ∈ w, t.Worded) : c.Legible tree := by
  induction h with
  | operation _ ih | tighter _ _ ih | operand _ ih | primary _ ih | braced _ ih => exact ih hw
  | least | number | string | truth | unit | done | empty | leave | again => trivial
  | var hkind => exact hw _ List.mem_cons_self hkind
  | assign hkind _ _ ih =>
      simp only [List.forall_mem_cons] at hw
      exact ⟨hw.1 hkind, ih hw.2.2⟩
  | unary _ _ ih =>
      simp only [List.forall_mem_cons] at hw
      exact ih hw.2
  | binary _ _ _ ihl ihr =>
      simp only [List.forall_mem_append, List.forall_mem_cons] at hw
      exact ⟨ihl hw.1, ihr hw.2.2⟩
  | paren _ _ _ ih | block _ _ _ ih =>
      simp only [List.forall_mem_append, List.forall_mem_cons] at hw
      exact ih hw.2.1
  | choice _ _ _ _ ihc ihb iho | orIf _ _ _ _ ihc ihb iho =>
      simp only [List.forall_mem_append, List.forall_mem_cons] at hw
      exact ⟨ihc hw.2.1, ihb hw.2.2.1, iho hw.2.2.2⟩
  | loop _ _ _ ihc ihb =>
      simp only [List.forall_mem_append, List.forall_mem_cons] at hw
      exact ⟨ihc hw.2.1, ihb hw.2.2⟩
  | otherwise _ _ ih =>
      simp only [List.forall_mem_cons] at hw
      exact ih hw.2
  | last _ ih => exact ⟨ih hw, trivial⟩
  | divided _ _ _ ihs ihr =>
      simp only [List.forall_mem_append, List.forall_mem_cons] at hw
      exact ⟨ihs hw.1, ihr hw.2.2⟩
  | undivided _ _ _ _ ihs ihr =>
      simp only [List.forall_mem_append, List.forall_mem_cons] at hw ihs ihr
      exact ⟨ihs ⟨hw.1, hw.2.1, List.forall_mem_nil _⟩, ihr hw.2.2⟩
  | declare _ hkind _ _ ih =>
      simp only [List.forall_mem_cons] at hw
      exact ⟨hw.2.1 hkind, ih hw.2.2.2⟩
  | write _ _ ih =>
      simp only [List.forall_mem_cons] at hw
      exact ⟨ih hw.2, rfl⟩
  | expr _ ih => exact ih hw

end Grammar

namespace Check

mutual

/-- Checking keeps the names, and a printed value is printed with its tag. -/
theorem expr_legible : ∀ e : Expr .parsed, e.located.Legible → Gives (expr e) Expr.Legible
  | .int _ _, _ | .string _ _, _ | .bool _ _, _ | .unit _, _ => .pure trivial
  | .var _ _, h => .bind .any fun _ _ => .pure h
  | .assign name value _, h => by
      refine .bind .any fun t _ => .bind (expr_legible value h.2) fun value' hvalue => .bind .any fun _ _ => ?_
      have hrest : Gives (pure (.assign name value' t) : Check (Expr .typed)) Expr.Legible := .pure ⟨h.1, hvalue⟩
      exact .ite (.bind .any fun _ _ => hrest) hrest
  | .unary _ operand _, h =>
      .bind (expr_legible operand h) fun _ hoperand => .bind .any fun _ _ => .pure hoperand
  | .binary _ left right _, h =>
      .bind (expr_legible left h.1) fun _ hl => .bind (expr_legible right h.2) fun _ hr =>
        .bind .any fun _ _ => .pure ⟨hl, hr⟩
  | .block body _, h => .bind (.inBlock (stmts_legible body h)) fun _ hbody => .pure hbody
  | .choice cond body others _, h =>
      .bind (expr_legible cond h.1) fun _ hc => .bind .any fun _ _ =>
        .bind (.inBlock (stmts_legible body h.2.1)) fun _ hb =>
          .bind (branches_legible others h.2.2) fun _ ho => .pure ⟨hc, hb, ho⟩
  | .loop cond body _, h =>
      .bind (expr_legible cond h.1) fun _ hc => .bind .any fun _ _ =>
        .bind (.inLoop (.inBlock (stmts_legible body h.2))) fun _ hb => .pure ⟨hc, hb⟩

theorem branches_legible : ∀ (b : Branches .parsed) {first : Ty}, b.located.Legible →
    Gives (branches first b) Branches.Legible
  | .done, _, _ => .bind .any fun _ _ => .pure trivial
  | .otherwise body, _, h =>
      .bind (.inBlock (stmts_legible body h)) fun _ hbody => .bind .any fun _ _ => .pure hbody
  | .orIf cond body others, _, h =>
      .bind (expr_legible cond h.1) fun _ hc => .bind .any fun _ _ =>
        .bind (.inBlock (stmts_legible body h.2.1)) fun _ hb => .bind .any fun _ _ =>
          .bind (branches_legible others h.2.2) fun _ ho => .pure ⟨hc, hb, ho⟩

theorem stmts_legible : ∀ body : List (Stmt .parsed), Body.Legible (Body.located body) →
    Gives (stmts body) Body.Legible
  | [], _ => .pure trivial
  | s :: rest, h =>
      .bind (.atStmt (stmt_legible s h.1)) fun _ hs => .bind .any fun _ _ =>
        .bind (stmts_legible rest h.2) fun _ hr => .pure ⟨hs, hr⟩

theorem stmt_legible : ∀ s : Stmt .parsed, s.located.Legible → Gives (stmt s) Stmt.Legible
  | .declare type name init _, h => by
      refine .bind .any fun c _ => .bind .any fun _ _ => .bind (expr_legible init h.2) fun init' hinit => ?_
      refine .bind .any fun _ _ => .bind .any fun c' _ => ?_
      have hrest : Gives (modify (fun c => { c with scope := c.scope.declare name type }) >>= fun _ =>
          (pure (.declare type name init' .unit) : Check (Stmt .typed))) Stmt.Legible :=
        .bind .any fun _ _ => .pure ⟨h.1, hinit⟩
      exact .ite (.bind .any fun _ _ => hrest) hrest
  | .write _ value _ _, h => .bind (expr_legible value h.1) fun _ hvalue => .pure ⟨hvalue, rfl⟩
  | .leave _, _ | .again _, _ => .bind .any fun _ _ => .bind .any fun _ _ => .pure trivial
  | .expr value _, h => .bind (expr_legible value h) fun _ hvalue => .pure hvalue

end

end Check

theorem isPlain_slot (slot : Nat) : IsPlain ("#" ++ toString slot).toList := by
  rw [String.toList_append]
  exact List.forall_mem_append.mpr ⟨by simp, isPlain_toString_int slot⟩

namespace Resolve

/-- Resolving keeps the type of an expression. -/
theorem expr_tag {e : Expr .typed} {e' : Expr .resolved} {σ σ' : Slots} (h : expr e σ = .ok (e', σ')) :
    e'.tag = e.tag := by
  cases e with
  | int | string | bool | unit =>
      cases h
      rfl
  | var =>
      obtain ⟨_, -, -, rfl⟩ := var_inv h
      rfl
  | assign =>
      obtain ⟨_, _, -, -, rfl⟩ := assign_inv h
      rfl
  | unary =>
      obtain ⟨_, -, rfl⟩ := unary_inv h
      rfl
  | binary =>
      obtain ⟨_, _, _, -, -, rfl⟩ := binary_inv h
      rfl
  | block =>
      obtain ⟨_, _, -, -, rfl⟩ := block_inv h
      rfl
  | choice =>
      obtain ⟨_, _, _, _, _, -, -, -, rfl⟩ := choice_inv h
      rfl
  | loop =>
      obtain ⟨_, _, _, _, -, -, -, rfl⟩ := loop_inv h
      rfl

mutual

/-- Slots are always words, and resolving keeps every tag. -/
theorem expr_legible : ∀ (e : Expr .typed) {e' : Expr .resolved} {σ σ' : Slots}, expr e σ = .ok (e', σ') →
    e.Legible → e'.Legible
  | .int _ _, _, _, _, h, _ | .string _ _, _, _, _, h, _ | .bool _ _, _, _, _, h, _ | .unit _, _, _, _, h, _ => by
      cases h
      trivial
  | .var _ _, _, _, _, h, _ => by
      obtain ⟨slot, -, -, rfl⟩ := var_inv h
      exact isPlain_slot slot
  | .assign _ value _, _, _, _, h, he => by
      obtain ⟨v, slot, hv, -, rfl⟩ := assign_inv h
      exact ⟨isPlain_slot slot, expr_legible value hv he.2⟩
  | .unary _ operand _, _, _, _, h, he => by
      obtain ⟨v, hv, rfl⟩ := unary_inv h
      have hoperand := expr_legible operand hv he
      exact hoperand
  | .binary _ left right _, _, _, _, h, he => by
      obtain ⟨l, r, σ₁, hl, hr, rfl⟩ := binary_inv h
      exact ⟨expr_legible left hl he.1, expr_legible right hr he.2⟩
  | .block body _, _, _, _, h, he => by
      obtain ⟨b, σ₁, hb, -, rfl⟩ := block_inv h
      exact stmts_legible body hb he
  | .choice cond body others _, _, _, _, h, he => by
      obtain ⟨c, b, o, σ₁, σ₂, hc, hb, ho, rfl⟩ := choice_inv h
      exact ⟨expr_legible cond hc he.1, stmts_legible body hb he.2.1, branches_legible others ho he.2.2⟩
  | .loop cond body _, _, _, _, h, he => by
      obtain ⟨c, b, σ₁, σ₂, hc, hb, -, rfl⟩ := loop_inv h
      exact ⟨expr_legible cond hc he.1, stmts_legible body hb he.2⟩

theorem branches_legible : ∀ (b : Branches .typed) {b' : Branches .resolved} {σ σ' : Slots},
    branches b σ = .ok (b', σ') → b.Legible → b'.Legible
  | .done, _, _, _, h, _ => by
      cases h
      trivial
  | .otherwise body, _, _, _, h, hb => by
      obtain ⟨b, σ₁, hbody, -, rfl⟩ := otherwise_inv h
      exact stmts_legible body hbody hb
  | .orIf cond body others, _, _, _, h, hb => by
      obtain ⟨c, b, o, σ₁, σ₂, hc, hbody, ho, rfl⟩ := orIf_inv h
      exact ⟨expr_legible cond hc hb.1, stmts_legible body hbody hb.2.1, branches_legible others ho hb.2.2⟩

theorem stmts_legible : ∀ (body : List (Stmt .typed)) {body' : Body .resolved} {σ σ' : Slots},
    stmts body σ = .ok (body', σ') → Body.Legible body → Body.Legible body'
  | [], _, _, _, h, _ => by
      cases h
      trivial
  | s :: rest, _, _, _, h, hbody => by
      obtain ⟨first, later, σ₁, hs, hr, rfl⟩ := stmts_cons_inv h
      exact ⟨stmt_legible s hs hbody.1, stmts_legible rest hr hbody.2⟩

theorem stmt_legible : ∀ (s : Stmt .typed) {s' : Stmt .resolved} {σ σ' : Slots}, stmt s σ = .ok (s', σ') →
    s.Legible → s'.Legible
  | .declare _ _ init _, _, _, _, h, hs => by
      obtain ⟨i, σ₁, hi, -, rfl⟩ := declare_inv h
      exact ⟨isPlain_slot _, expr_legible init hi hs.2⟩
  | .write _ value _ _, _, _, _, h, hs => by
      obtain ⟨v, hv, rfl⟩ := write_inv h
      exact ⟨expr_legible value hv hs.1, hs.2.trans (expr_tag hv).symm⟩
  | .leave _, _, _, _, h, _ | .again _, _, _, _, h, _ => by
      cases h
      trivial
  | .expr value _, _, _, _, h, hs => by
      obtain ⟨v, hv, rfl⟩ := expr_stmt_inv h
      exact expr_legible value hv hs

end

end Resolve

/-- A program that some source stands for. -/
def IsParsed (program : Body .parsed) : Prop :=
  ∃ settings file source tokens, (Scan.tokenize settings file source).2 = .ok tokens ∧ parse tokens = .ok program

theorem IsParsed.legible {program : Body .parsed} (h : IsParsed program) :
    Body.Legible (Body.located program) := by
  obtain ⟨settings, file, source, tokens, hscan, hparse⟩ := h
  have hderives : Grammar.Derives .body (Grammar.front tokens) program :=
    (Parse.parse_iff_front (Scan.tokenize_ends hscan) (Scan.proper_of_tokenize hscan)).mp hparse
  refine hderives.legible fun t ht => Scan.worded_of_tokenize hscan t ?_
  exact (List.takeWhile_sublist _).subset ht

theorem Checker.legible_of_check {program : Body .parsed} {typed : Body .typed} {c : Checker}
    (h : Body.Legible (Body.located program)) (hcheck : ({} : Checker).check program = (.ok typed, c)) :
    Body.Legible typed :=
  Check.stmts_legible program h _ _ _ hcheck

theorem legible_of_resolve {typed : Body .typed} {resolved : Body .resolved} {slots : Nat}
    (h : Body.Legible typed) (hresolve : resolve typed = .ok (resolved, slots)) : Body.Legible resolved := by
  cases hrun : Resolve.stmts typed {} with
  | error e =>
      rw [resolve, StateT.run, hrun] at hresolve
      cases hresolve
  | ok result =>
      rw [resolve, StateT.run, hrun] at hresolve
      cases hresolve
      exact Resolve.stmts_legible typed hrun h

/-- The outline of a program determines the program at every stage: the parsed tree but for what the tokens of its
statements hold besides their places, and the typed and the resolved tree altogether. -/
theorem dump_determines_tree {p p' : Body .parsed} (hp : IsParsed p) (hp' : IsParsed p') :
    (dump p = dump p' ↔ Body.located p = Body.located p') ∧
    ∀ {t t' : Body .typed} {c c' : Checker}, ({} : Checker).check p = (.ok t, c) →
      ({} : Checker).check p' = (.ok t', c') →
      (dump t = dump t' → t = t') ∧
      ∀ {r r' : Body .resolved} {n n' : Nat}, resolve t = .ok (r, n) → resolve t' = .ok (r', n') →
        dump r = dump r' → r = r' := by
  constructor
  · rw [← dump_located p, ← dump_located p']
    exact ⟨eq_of_dump_eq hp.legible hp'.legible, congrArg dump⟩
  · intro t t' c c' ht ht'
    have hlegible := Checker.legible_of_check hp.legible ht
    have hlegible' := Checker.legible_of_check hp'.legible ht'
    refine ⟨eq_of_dump_eq hlegible hlegible', ?_⟩
    intro r r' n n' hr hr'
    exact eq_of_dump_eq (legible_of_resolve hlegible hr) (legible_of_resolve hlegible' hr')

/-- Two sources that differ in the spelling of a numeral: the parsed trees differ in the length of a token only. -/
theorem dump_determines_tree_numeral :
    ∃ p p' : Body .parsed, p ≠ p' ∧ IsParsed p ∧ IsParsed p' ∧ dump p = dump p' ∧
      Body.located p = Body.located p' ∧
      ∃ t t' c c', ({} : Checker).check p = (.ok t, c) ∧ ({} : Checker).check p' = (.ok t', c') ∧ t = t' ∧
        ∃ r r' n n', resolve t = .ok (r, n) ∧ resolve t' = .ok (r', n') ∧ r = r' := by
  let program (len : Int) : Body .parsed :=
    [.declare .int "x" (.int 1 ()) ⟨.kwInt, "", 0, 1, 1, 3⟩,
      .expr (.binary .add (.int 2 ()) (.var "x" ()) ()) ⟨.number, "2", 0, 1, 12, len⟩]
  have hshort : IsParsed (program 1) :=
    ⟨{}, 0, "int x = 1; 2  + x".toList,
      [⟨.kwInt, "", 0, 1, 1, 3⟩, ⟨.ident, "x", 0, 1, 5, 1⟩, ⟨.eq, "", 0, 1, 7, 1⟩, ⟨.number, "1", 0, 1, 9, 1⟩,
        ⟨.semi, "", 0, 1, 10, 1⟩, ⟨.number, "2", 0, 1, 12, 1⟩, ⟨.plus, "", 0, 1, 15, 1⟩,
        ⟨.ident, "x", 0, 1, 17, 1⟩, ⟨.eof, "", 0, 1, 18, 0⟩], by decide +kernel, rfl⟩
  have hlong : IsParsed (program 2) :=
    ⟨{}, 0, "int x = 1; 02 + x".toList,
      [⟨.kwInt, "", 0, 1, 1, 3⟩, ⟨.ident, "x", 0, 1, 5, 1⟩, ⟨.eq, "", 0, 1, 7, 1⟩, ⟨.number, "1", 0, 1, 9, 1⟩,
        ⟨.semi, "", 0, 1, 10, 1⟩, ⟨.number, "2", 0, 1, 12, 2⟩, ⟨.plus, "", 0, 1, 15, 1⟩,
        ⟨.ident, "x", 0, 1, 17, 1⟩, ⟨.eof, "", 0, 1, 18, 0⟩], by decide +kernel, rfl⟩
  have hne : program 1 ≠ program 2 := by
    intro h
    cases h
  obtain ⟨hdump, htyped⟩ := dump_determines_tree hshort hlong
  have hcheck : ∀ len, ∃ c, ({} : Checker).check (program len) = (.ok
      [.declare .int "x" (.int 1 .int) .unit, .expr (.binary .add (.int 2 .int) (.var "x" .int) .int) .int], c) :=
    fun len => ⟨_, rfl⟩
  obtain ⟨c, hc⟩ := hcheck 1
  obtain ⟨c', hc'⟩ := hcheck 2
  obtain ⟨hequal, hresolved⟩ := htyped hc hc'
  have hdumped : dump (program 1) = dump (program 2) := rfl
  exact ⟨program 1, program 2, hne, hshort, hlong, hdumped, hdump.mp hdumped, _, _, c, c', hc, hc', hequal rfl, _, _,
    _, _, rfl, rfl, hresolved rfl rfl rfl⟩

end BlockLang

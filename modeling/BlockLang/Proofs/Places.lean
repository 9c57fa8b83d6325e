import BlockLang.Proofs.Safety
import BlockLang.Proofs.Spelling

/-! The places of tokens decide nothing. A token without its place keeps its kind and its text. Each stage
that sees tokens does the same with and without their places: what it yields without them is what it
yields with them once the places are taken off. So two sources whose tokens say the same compile to the
same code, or are refused for the same reason. -/

namespace BlockLang

def Token.unplaced (t : Token) : Token := { kind := t.kind, text := t.text }

mutual

/-- An expression whose statements have lost their places. -/
def Expr.unplaced : Expr .parsed → Expr .parsed
  | .int value t => .int value t
  | .string value t => .string value t
  | .bool value t => .bool value t
  | .unit t => .unit t
  | .var name t => .var name t
  | .assign name value t => .assign name value.unplaced t
  | .unary op operand t => .unary op operand.unplaced t
  | .binary op left right t => .binary op left.unplaced right.unplaced t
  | .block body t => .block (Body.unplaced body) t
  | .choice cond body others t => .choice cond.unplaced (Body.unplaced body) others.unplaced t
  | .loop cond body t => .loop cond.unplaced (Body.unplaced body) t

/-- The later branches of a choice whose statements have lost their places. -/
def Branches.unplaced : Branches .parsed → Branches .parsed
  | .done => .done
  | .otherwise body => .otherwise (Body.unplaced body)
  | .orIf cond body others => .orIf cond.unplaced (Body.unplaced body) others.unplaced

/-- A body whose statements have lost their places. -/
def Body.unplaced : List (Stmt .parsed) → List (Stmt .parsed)
  | [] => []
  | s :: rest => s.unplaced :: Body.unplaced rest

/-- A statement without its place. -/
def Stmt.unplaced : Stmt .parsed → Stmt .parsed
  | .declare type name init token => .declare type name init.unplaced token.unplaced
  | .write newline value t token => .write newline value.unplaced t token.unplaced
  | .leave token => .leave token.unplaced
  | .again token => .again token.unplaced
  | .expr value token => .expr value.unplaced token.unplaced

end

theorem Stmt.mark_unplaced (s : Stmt .parsed) : s.unplaced.mark = s.mark.unplaced := by
  cases s <;> rfl

/-- A syntax error without its place. -/
def SyntaxError.unplaced (e : SyntaxError) : SyntaxError := { e with token := e.token.unplaced }

/-- A type error without its place. -/
def TypeError.unplaced (e : TypeError) : TypeError := { e with token := e.token.unplaced }

/-- A warning without its place. -/
def Notice.unplaced (n : Notice) : Notice := { n with token := n.token.unplaced }

theorem Token.unplaced_congr {t u : Token} (h : t.lexeme = u.lexeme) : t.unplaced = u.unplaced := by
  obtain ⟨hkind, htext⟩ : t.kind = u.kind ∧ t.text = u.text := Lexeme.mk.inj h
  rw [unplaced, unplaced, hkind, htext]

theorem map_unplaced_congr {ts us : List Token} (h : ts.map Token.lexeme = us.map Token.lexeme) :
    ts.map Token.unplaced = us.map Token.unplaced := by
  induction ts generalizing us with
  | nil =>
      rw [List.map_eq_nil_iff.mp h.symm]
  | cons t ts ih =>
      cases us with
      | nil => cases h
      | cons u us =>
          obtain ⟨hhead, htail⟩ := List.cons.inj h
          rw [List.map_cons, List.map_cons, Token.unplaced_congr hhead, ih htail]

/-! ### Parsing -/

namespace Stream

/-- A stream of tokens without their places. -/
def unplaced (s : Stream) : Stream :=
  { rest := s.rest.map Token.unplaced, current := s.current.unplaced, previous := s.previous.unplaced }

theorem unplaced_ofTokens (tokens : List Token) :
    ofTokens (tokens.map Token.unplaced) = (ofTokens tokens).unplaced := by
  cases tokens <;> rfl

theorem advance_unplaced (s : Stream) : s.unplaced.advance = s.advance.unplaced := by
  obtain ⟨rest, current, previous⟩ := s
  rcases rest with _ | ⟨first, _ | ⟨second, more⟩⟩ <;> rfl

theorem peek_unplaced (s : Stream) : s.unplaced.peek = s.peek.unplaced := by
  obtain ⟨rest, current, previous⟩ := s
  rcases rest with _ | ⟨first, _ | ⟨second, more⟩⟩ <;> rfl

end Stream

namespace Parse

open Sequence

variable {α β γ δ : Type}

/-- A reader does without places what another one does with them; `f` takes places off results. -/
def Follows (f : α → β) (x : Parse α) (y : Parse β) : Prop :=
  ∀ s, y s.unplaced = ((x s).map fun r => (f r.1, r.2.unplaced)).mapError SyntaxError.unplaced

namespace Follows

variable {f : α → β} {g : γ → δ} {x x' : Parse α} {y y' : Parse β} {k : α → Parse γ} {l : β → Parse δ}

theorem pure {a : α} {b : β} (h : b = f a) : Follows f (Pure.pure a) (Pure.pure b) := by
  rw [h]
  exact fun _ => rfl

theorem fail {cause : SyntaxCause} {token : Token} :
    Follows f (Parse.fail cause token) (Parse.fail cause token.unplaced) := fun _ => rfl

theorem bind (hx : Follows f x y) (hk : ∀ a, Follows g (k a) (l (f a))) :
    Follows g (x >>= k) (y >>= l) := by
  intro s
  show (y s.unplaced).bind _ = (((x s).bind _).map _).mapError _
  rw [hx s]
  cases x s with
  | error e => rfl
  | ok r => exact hk r.1 r.2

theorem map {h : α → γ} {h' : β → δ} (hx : Follows f x y) (hh : ∀ a, h' (f a) = g (h a)) :
    Follows g (x >>= fun a => Pure.pure (h a)) (y >>= fun b => Pure.pure (h' b)) :=
  bind hx fun a => pure (hh a)

theorem ite {p q : Prop} [Decidable p] [Decidable q] (hpq : p ↔ q) (hx : Follows f x y)
    (hx' : Follows f x' y') : Follows f (if p then x else x') (if q then y else y') := by
  by_cases hp : p
  · rw [if_pos hp, if_pos (hpq.mp hp)]
    exact hx
  · rw [if_neg hp, if_neg fun hq => hp (hpq.mpr hq)]
    exact hx'

theorem get : Follows Stream.unplaced MonadState.get MonadState.get := fun _ => rfl

theorem current : Follows Token.unplaced Parse.current Parse.current := fun _ => rfl

theorem advance : Follows id Parse.advance Parse.advance :=
  fun s => congrArg (fun t => Except.ok ((), t)) s.advance_unplaced

theorem accept {kind : TokenKind} : Follows id (Parse.accept kind) (Parse.accept kind) := by
  intro s
  rw [Parse.accept, Parse.accept, Stream.advance_unplaced]
  have hcurrent : s.unplaced.current.kind = s.current.kind := rfl
  rw [hcurrent]
  split_ifs <;> rfl

theorem expect {kind : TokenKind} {what : Expected} :
    Follows Token.unplaced (Parse.expect kind what) (Parse.expect kind what) := by
  intro s
  rw [Parse.expect, Parse.expect, Stream.advance_unplaced]
  have hcurrent : s.unplaced.current.kind = s.current.kind := rfl
  rw [hcurrent]
  split_ifs <;> rfl

theorem numberValue {token : Token} :
    Follows id (Parse.numberValue token) (Parse.numberValue token.unplaced) := by
  rw [Parse.numberValue, Parse.numberValue]
  have htext : token.unplaced.text = token.text := rfl
  rw [htext]
  cases Text.readSigned token.text.toList with
  | ok value => exact pure rfl
  | error e => exact fail

/-- The end of the descent. -/
theorem endless : Follows f (Parse.current >>= Parse.fail .endless) (Parse.current >>= Parse.fail .endless) :=
  bind current fun _ => fail

end Follows

/-- The readers of a given depth do the same without places. -/
structure Blind (depth : Nat) : Prop where
  expr : Follows Expr.unplaced (expr depth) (expr depth)
  binary : ∀ level, Follows Expr.unplaced (binary depth level) (binary depth level)
  operators : ∀ level left,
    Follows Expr.unplaced (operators depth level left) (operators depth level left.unplaced)
  unary : Follows Expr.unplaced (unary depth) (unary depth)
  primary : Follows Expr.unplaced (primary depth) (primary depth)
  branches : Follows Branches.unplaced (branches depth) (branches depth)
  block : Follows Body.unplaced (block depth) (block depth)
  stmts : ∀ stop, Follows Body.unplaced (stmts depth stop) (stmts depth stop)
  stmt : Follows Stmt.unplaced (stmt depth) (stmt depth)

namespace Blind

variable {depth : Nat} (h : Blind depth)

include h

theorem expr_succ : Follows Expr.unplaced (Parse.expr (depth + 1)) (Parse.expr (depth + 1)) := by
  rw [Parse.expr]
  refine .bind .get fun s => .ite ?_ ?_ (h.binary 0)
  · rw [Stream.peek_unplaced]
    rfl
  · refine .bind .advance fun _ => .bind .advance fun _ => ?_
    exact .map h.expr fun _ => rfl

theorem binary_succ (level : Nat) :
    Follows Expr.unplaced (Parse.binary (depth + 1) level) (Parse.binary (depth + 1) level) := by
  rw [Parse.binary]
  exact .ite .rfl h.unary (.bind (h.binary (level + 1)) fun left => h.operators level left)

/-- Operators are read alike, wherever the tokens are. -/
theorem operators_succ (level : Nat) (left : Expr .parsed) :
    Follows Expr.unplaced (Parse.operators (depth + 1) level left)
      (Parse.operators (depth + 1) level left.unplaced) := by
  rw [Parse.operators, Parse.operators]
  refine .bind .current fun token => ?_
  have hkind : token.unplaced.kind = token.kind := rfl
  rw [hkind]
  cases binaryOp? token.kind with
  | none => exact .pure rfl
  | some op =>
      refine .ite .rfl ?_ (.pure rfl)
      refine .bind .advance fun _ => .bind (h.binary (level + 1)) fun right => ?_
      exact h.operators level (.binary op left right ())

theorem unary_succ : Follows Expr.unplaced (Parse.unary (depth + 1)) (Parse.unary (depth + 1)) := by
  rw [Parse.unary]
  refine .bind .current fun token => ?_
  have hkind : token.unplaced.kind = token.kind := rfl
  rw [hkind]
  cases unaryOp? token.kind with
  | none => exact h.primary
  | some op =>
      refine .bind .advance fun _ => .bind .current fun next => .ite .rfl ?_ ?_
      · exact .bind .advance fun _ => .pure rfl
      · exact .map h.unary fun _ => rfl

/-- An operand is read alike, wherever the tokens are. -/
theorem primary_succ : Follows Expr.unplaced (Parse.primary (depth + 1)) (Parse.primary (depth + 1)) := by
  rw [Parse.primary]
  refine .bind .current fun token => ?_
  have hkind : token.unplaced.kind = token.kind := rfl
  rw [hkind]
  split
  case h_1 => exact .bind .advance fun _ => .map .numberValue fun _ => rfl
  case h_2 | h_3 | h_4 | h_5 => exact .bind .advance fun _ => .pure rfl
  case h_6 =>
    refine .bind .advance fun _ => .bind .accept fun accepted => .ite .rfl (.pure rfl) ?_
    exact .bind h.expr fun _ => .map .expect fun _ => rfl
  case h_7 => exact .map h.block fun _ => rfl
  case h_8 =>
    refine .bind .advance fun _ => .bind h.expr fun _ => .bind h.block fun _ => ?_
    exact .map h.branches fun _ => rfl
  case h_9 => exact .bind .advance fun _ => .bind h.expr fun _ => .map h.block fun _ => rfl
  case h_10 => exact .fail

theorem branches_succ :
    Follows Branches.unplaced (Parse.branches (depth + 1)) (Parse.branches (depth + 1)) := by
  rw [Parse.branches]
  refine .bind .accept fun _ => .ite .rfl ?_ ?_
  · exact .bind h.expr fun _ => .bind h.block fun _ => .map h.branches fun _ => rfl
  · exact .bind .accept fun _ => .ite .rfl (.map h.block fun _ => rfl) (.pure rfl)

theorem block_succ : Follows Body.unplaced (Parse.block (depth + 1)) (Parse.block (depth + 1)) := by
  rw [Parse.block]
  exact .bind .expect fun _ => .bind (h.stmts .rbrace) fun _ => .map .expect fun _ => rfl

theorem stmts_succ (stop : TokenKind) :
    Follows Body.unplaced (Parse.stmts (depth + 1) stop) (Parse.stmts (depth + 1) stop) := by
  rw [Parse.stmts]
  refine .bind .current fun first => .ite .rfl (.pure rfl) ?_
  refine .bind h.stmt fun s => .bind .accept fun divided => .bind .get fun behind => .ite .rfl ?_ .fail
  exact .map (h.stmts stop) fun _ => rfl

/-- A statement is read alike, but for the place in its mark. -/
theorem stmt_succ : Follows Stmt.unplaced (Parse.stmt (depth + 1)) (Parse.stmt (depth + 1)) := by
  rw [Parse.stmt]
  refine .bind .current fun token => ?_
  have hkind : token.unplaced.kind = token.kind := rfl
  rw [hkind]
  cases declaredType? token.kind with
  | some type =>
      refine .bind .advance fun _ => .bind .expect fun _ => .bind .expect fun _ => ?_
      exact .map h.expr fun _ => rfl
  | none =>
      simp only
      split
      case h_1 | h_2 => exact .bind .advance fun _ => .map h.expr fun _ => rfl
      case h_3 | h_4 => exact .bind .advance fun _ => .pure rfl
      case h_5 => exact .map h.expr fun _ => rfl

end Blind

/-- At every depth the readers do the same without places. -/
theorem blind (depth : Nat) : Blind depth := by
  induction depth with
  | zero =>
      exact ⟨by rw [expr]; exact .endless, fun _ => by rw [binary]; exact .endless,
        fun _ _ => by rw [operators, operators]; exact .endless, by rw [unary]; exact .endless,
        by rw [primary]; exact .endless, by rw [branches]; exact .endless, by rw [block]; exact .endless,
        fun _ => by rw [stmts]; exact .endless, by rw [stmt]; exact .endless⟩
  | succ depth h => exact ⟨h.expr_succ, h.binary_succ, h.operators_succ, h.unary_succ, h.primary_succ,
      h.branches_succ, h.block_succ, h.stmts_succ, h.stmt_succ⟩

end Parse

/-- Tokens without places are parsed as with them, up to the places. -/
theorem parse_unplaced (tokens : List Token) :
    parse (tokens.map Token.unplaced) =
      ((parse tokens).map Body.unplaced).mapError SyntaxError.unplaced := by
  have hprogram : Parse.Follows Body.unplaced (Parse.program (Parse.depthBound tokens))
      (Parse.program (Parse.depthBound tokens)) := by
    rw [Parse.program]
    exact .bind ((Parse.blind _).stmts .eof) fun _ => .map .expect fun _ => rfl
  have hdepth : Parse.depthBound (tokens.map Token.unplaced) = Parse.depthBound tokens := by
    rw [Parse.depthBound, Parse.depthBound, List.length_map]
  rw [parse, parse, hdepth, Stream.unplaced_ofTokens]
  show ((Parse.program _) _).map Prod.fst = ((((Parse.program _) _).map Prod.fst).map _).mapError _
  rw [hprogram]
  cases Parse.program (Parse.depthBound tokens) (Stream.ofTokens tokens) with
  | error e => rfl
  | ok r => rfl

/-! ### Checking -/

def Checker.unplaced (c : Checker) : Checker :=
  { c with stmt := c.stmt.unplaced, notices := c.notices.map Notice.unplaced }

namespace Check

open Sequence

variable {α β : Type}

/-- A check does without places what another one does with them. -/
def Follows (x y : Check α) : Prop :=
  ∀ c, y c.unplaced = ((x c).1.mapError TypeError.unplaced, (x c).2.unplaced)

namespace Follows

variable {x y x' y' : Check α} {f g : α → Check β}

theorem pure {a : α} : Follows (Pure.pure a) (Pure.pure a) := fun _ => rfl

theorem bind (hx : Follows x y) (hf : ∀ a, Follows (f a) (g a)) : Follows (x >>= f) (y >>= g) := by
  intro c
  rw [bind_apply, bind_apply, hx c]
  rcases x c with ⟨e | a, c'⟩
  · rfl
  · exact hf a c'

theorem ite {p : Prop} [Decidable p] (hx : Follows x y) (hx' : Follows x' y') :
    Follows (if p then x else x') (if p then y else y') := by
  split_ifs
  · exact hx
  · exact hx'

theorem fail {cause : TypeCause} : Follows (fail cause : Check α) (Check.fail cause) := fun _ => rfl

theorem warn {concern : Concern} : Follows (warn concern) (Check.warn concern) := by
  intro c
  rw [Check.warn, Check.warn]
  simp only [Checker.unplaced, List.map_append]
  rfl

theorem require {holds : Bool} {cause : TypeCause} :
    Follows (require holds cause) (Check.require holds cause) :=
  ite pure fail

theorem lookup {name : String} : Follows (lookup name) (Check.lookup name) := by
  intro c
  rw [Check.lookup, Check.lookup]
  have hscope : c.unplaced.scope = c.scope := rfl
  rw [hscope]
  cases c.scope.type? name <;> rfl

theorem lift {r : Except TypeCause α} : Follows (lift r) (Check.lift r) := by
  cases r with
  | ok a => exact pure
  | error cause => exact fail

theorem inBlock (hx : Follows x y) : Follows (inBlock x) (Check.inBlock y) := by
  intro c
  have hc := hx { c with scope := c.scope.child }
  exact congrArg (fun r : Except TypeError α × Checker => (r.1, { r.2 with scope := c.scope })) hc

theorem inLoop (hx : Follows x y) : Follows (inLoop x) (Check.inLoop y) := by
  intro c
  have hc := hx { c with inLoop := true }
  exact congrArg (fun r : Except TypeError α × Checker => (r.1, { r.2 with inLoop := c.inLoop })) hc

theorem atStmt (hx : Follows x y) (token : Token) :
    Follows (atStmt token x) (Check.atStmt token.unplaced y) := by
  intro c
  have hc := hx { c with stmt := token }
  exact congrArg
    (fun r : Except TypeError α × Checker => (r.1, { r.2 with stmt := c.stmt.unplaced })) hc

theorem condition {construct : String} {cond : Expr .parsed} {type : Ty} :
    Follows (condition construct cond type) (Check.condition construct cond.unplaced type) := by
  refine bind require fun _ => ?_
  cases cond with
  | bool value => exact warn
  | _ => exact pure

/-- What is read from a checker is not a place. -/
theorem getting {f g : Checker → Check α} (hf : ∀ c, Follows (f c) (g c.unplaced)) :
    Follows (get >>= f) (get >>= g) := by
  intro c
  rw [bind_apply, bind_apply, get_apply, get_apply]
  exact hf c c

theorem declare {name : String} {type : Ty} :
    Follows (modify fun c => { c with scope := c.scope.declare name type })
      (modify fun c => { c with scope := c.scope.declare name type }) := fun _ => rfl

end Follows

theorem isVar_unplaced (name : String) (e : Expr .parsed) : isVar name e.unplaced = isVar name e := by
  cases e <;> rfl

theorem endsFlow_unplaced (s : Stmt .parsed) : endsFlow s.unplaced = endsFlow s := by
  cases s <;> rfl

theorem followed_follows (s : Stmt .parsed) (rest : Body .parsed) :
    Follows (followed s rest) (followed s.unplaced (Body.unplaced rest)) := by
  cases rest with
  | nil => exact .pure
  | cons next rest =>
      rw [Body.unplaced, followed, followed, endsFlow_unplaced, Stmt.mark_unplaced]
      exact .ite (fun _ => rfl) .pure

mutual

/-- An expression is checked alike, wherever its statements are. -/
theorem expr_follows : ∀ e : Expr .parsed, Follows (expr e) (expr e.unplaced)
  | .int _ _ | .string _ _ | .bool _ _ | .unit _ => .pure
  | .var _ _ => .bind .lookup fun _ => .pure
  | .assign name value _ => by
      rw [Expr.unplaced, expr, expr, isVar_unplaced]
      exact .bind .lookup fun _ => .bind (expr_follows value) fun _ => .bind .require fun _ =>
        .ite (.bind .warn fun _ => .pure) .pure
  | .unary _ operand _ => .bind (expr_follows operand) fun _ => .bind .lift fun _ => .pure
  | .binary _ left right _ =>
      .bind (expr_follows left) fun _ => .bind (expr_follows right) fun _ => .bind .lift fun _ => .pure
  | .block body _ => .bind (.inBlock (stmts_follows body)) fun _ => .pure
  | .choice cond body others _ =>
      .bind (expr_follows cond) fun _ => .bind .condition fun _ =>
        .bind (.inBlock (stmts_follows body)) fun _ => .bind (branches_follows others _) fun _ => .pure
  | .loop cond body _ =>
      .bind (expr_follows cond) fun _ => .bind .condition fun _ =>
        .bind (.inLoop (.inBlock (stmts_follows body))) fun _ => .pure

theorem branches_follows :
    ∀ (b : Branches .parsed) (first : Ty), Follows (branches first b) (branches first b.unplaced)
  | .done, _ => .bind .require fun _ => .pure
  | .otherwise body, _ =>
      .bind (.inBlock (stmts_follows body)) fun _ => .bind .require fun _ => .pure
  | .orIf cond body others, _ =>
      .bind (expr_follows cond) fun _ => .bind .condition fun _ =>
        .bind (.inBlock (stmts_follows body)) fun _ => .bind .require fun _ =>
          .bind (branches_follows others _) fun _ => .pure

theorem stmts_follows : ∀ body : List (Stmt .parsed), Follows (stmts body) (stmts (Body.unplaced body))
  | [] => .pure
  | s :: rest => by
      rw [Body.unplaced, stmts, stmts, Stmt.mark_unplaced]
      exact .bind (.atStmt (stmt_follows s) s.mark) fun _ => .bind (followed_follows s rest) fun _ =>
        .bind (stmts_follows rest) fun _ => .pure

theorem stmt_follows : ∀ s : Stmt .parsed, Follows (stmt s) (stmt s.unplaced)
  | .declare _ _ init _ =>
      .getting fun _ => .bind .require fun _ => .bind (expr_follows init) fun _ => .bind .require fun _ =>
        .getting fun _ => .ite (.bind .warn fun _ => .bind .declare fun _ => .pure)
          (.bind .declare fun _ => .pure)
  | .write _ value _ _ => .bind (expr_follows value) fun _ => .pure
  | .leave _ | .again _ => .getting fun _ => .bind .require fun _ => .pure
  | .expr value _ => .bind (expr_follows value) fun _ => .pure

end

end Check

/-- A program without places is checked as with them, up to the places. -/
theorem Checker.check_unplaced (program : Body .parsed) :
    ({} : Checker).check (Body.unplaced program) =
      ((({} : Checker).check program).1.mapError TypeError.unplaced,
        (({} : Checker).check program).2.unplaced) :=
  Check.stmts_follows program {}

namespace CompileError

def stage? (e : CompileError) : Option Stage := e.diagnostic?.map (·.stage)

/-- What an error says, without its place. -/
def text (e : CompileError) : String := (e.diagnostic?.map (·.text)).getD e.message

theorem text_grammatical (e : SyntaxError) :
    (grammatical e.unplaced).text = (grammatical e).text := by
  show e.unplaced.message = e.message
  have hdescribe : e.unplaced.token.describe = e.token.describe := rfl
  rw [SyntaxError.message, SyntaxError.message, hdescribe]
  rfl

end CompileError

namespace Compilation

def ofTokens (tokens : List Token) : Except CompileError Program := do
  let tree ← (parse tokens).mapError .grammatical
  let typed ← (({} : Checker).check tree).1.mapError .typing
  let (body, slots) ← (resolve typed).mapError .unresolved
  (generate body slots).mapError .emit

section Stages

variable {settings : Settings} {name : String} {source : List Char}

theorem typed_result : (typed settings name source).result =
    (parsed settings name source).result >>= fun tree =>
      (({} : Checker).check tree).1.mapError .typing := by
  simp only [typed]
  cases (parsed settings name source).result <;> rfl

theorem resolved_result : (resolved settings name source).result =
    (typed settings name source).result >>= fun program => (resolve program).mapError .unresolved := by
  simp only [resolved]
  cases (typed settings name source).result <;> rfl

/-- A compilation resolves, generates, and notes the hash of the source. -/
theorem compiled_result : (compiled settings name source).result =
    (resolved settings name source).result >>= fun r =>
      ((generate r.1 r.2).mapError .emit).map fun p => { p with sourceHash := Digest.ofSource source } := by
  simp only [compiled]
  cases (resolved settings name source).result with
  | error e => rfl
  | ok r =>
      obtain ⟨body, slots⟩ := r
      cases hcode : generate body slots with
      | error e =>
          simp only [hcode]
          show _ = ((generate body slots).mapError _).map _
          rw [hcode]
          rfl
      | ok p =>
          simp only [hcode]
          show _ = ((generate body slots).mapError _).map _
          rw [hcode]
          rfl

theorem map_bind {α : Type} (x : Except CompileError α) (f : α → Except CompileError Program)
    (g : Program → Program) : (x >>= f).map g = x >>= fun a => (f a).map g := by
  cases x <;> rfl

/-- The code of a source is that of its tokens, with the hash of the source. -/
theorem compiled_of_tokens {tokens : List Token} (h : (Scan.tokenize settings 0 source).2 = .ok tokens) :
    (compiled settings name source).result =
      (ofTokens tokens).map fun p => { p with sourceHash := Digest.ofSource source } := by
  have hparsed : (parsed settings name source).result = (parse tokens).mapError .grammatical := by
    simp only [parsed, h]
  rw [compiled_result, resolved_result, typed_result, hparsed, ofTokens, bind_assoc, bind_assoc, map_bind]
  refine congrArg _ (funext fun tree => ?_)
  rw [map_bind]
  refine congrArg _ (funext fun program => ?_)
  rw [map_bind]

end Stages

/-- Two compilations agree: both are refused at the same stage with the same words, or both yield the
same code. -/
inductive Agree : Except CompileError Program → Except CompileError Program → Prop where
  | refused {e e' : CompileError} : e.stage? = e'.stage? → e.text = e'.text →
      Agree (.error e) (.error e')
  | compiled {p p' : Program} : p.code = p'.code → p.strings = p'.strings →
      p.labelCount = p'.labelCount → p.slotCount = p'.slotCount → Agree (.ok p) (.ok p')

namespace Agree

variable {r r' r'' : Except CompileError Program}

theorem refl : ∀ r, Agree r r
  | .error _ => .refused rfl rfl
  | .ok _ => .compiled rfl rfl rfl rfl

theorem symm (h : Agree r r') : Agree r' r := by
  cases h with
  | refused hstage htext => exact .refused hstage.symm htext.symm
  | compiled hcode hstrings hlabels hslots =>
      exact .compiled hcode.symm hstrings.symm hlabels.symm hslots.symm

theorem trans (h : Agree r r') (h' : Agree r' r'') : Agree r r'' := by
  cases h with
  | refused hstage htext =>
      cases h' with
      | refused hstage' htext' => exact .refused (hstage.trans hstage') (htext.trans htext')
  | compiled hcode hstrings hlabels hslots =>
      cases h' with
      | compiled hcode' hstrings' hlabels' hslots' =>
          exact .compiled (hcode.trans hcode') (hstrings.trans hstrings') (hlabels.trans hlabels')
            (hslots.trans hslots')

theorem withHash (r : Except CompileError Program) (hash : UInt64) :
    Agree (r.map fun p => { p with sourceHash := hash }) r := by
  cases r with
  | error e => exact refl _
  | ok p => exact .compiled rfl rfl rfl rfl

end Agree

/-- Tokens without places have the same code, or are refused for the same reason. -/
theorem ofTokens_unplaced (tokens : List Token) :
    Agree (ofTokens (tokens.map Token.unplaced)) (ofTokens tokens) := by
  rw [ofTokens, ofTokens, parse_unplaced]
  cases parse tokens with
  | error e => exact .refused rfl (CompileError.text_grammatical e)
  | ok tree =>
      show Agree ((Except.mapError _ (({} : Checker).check (Body.unplaced tree)).1).bind _)
        ((Except.mapError _ (({} : Checker).check tree).1).bind _)
      rw [Checker.check_unplaced]
      cases (({} : Checker).check tree).1 with
      | error e => exact .refused rfl rfl
      | ok program => exact .refl _

/-- Two sources whose tokens say the same, wherever they stand, are refused at the same stage with the
same words, or have the same code. -/
theorem compiled_layout {settings : Settings} {source source' : List Char} {tokens tokens' : List Token}
    (h : (Scan.tokenize settings 0 source).2 = .ok tokens)
    (h' : (Scan.tokenize settings 0 source').2 = .ok tokens')
    (hsame : tokens.map Token.lexeme = tokens'.map Token.lexeme) (name name' : String) :
    Agree (compiled settings name source).result (compiled settings name' source').result := by
  have hleft := ofTokens_unplaced tokens
  have hright := ofTokens_unplaced tokens'
  rw [map_unplaced_congr hsame] at hleft
  rw [compiled_of_tokens h, compiled_of_tokens h']
  have hmiddle : Agree (ofTokens tokens) (ofTokens tokens') := hleft.symm.trans hright
  exact ((Agree.withHash _ _).trans hmiddle).trans (Agree.withHash _ _).symm

/-- A loop in one line and the same loop in several, with a comment; then with a statement behind it that
is refused in either place. -/
theorem compiled_layout_commented :
    let loop := "while true\x7bbreak\x7d"
    let spread := "while true \x7b // once\n\tbreak\n\x7d\n"
    let compile (text : String) := (compiled {} "a.sw" text.toList).result
    (compile loop).isOk = true ∧ Agree (compile loop) (compile spread) ∧
      (compile (loop ++ "break")).isOk = false ∧
      Agree (compile (loop ++ "break")) (compile (spread ++ "break")) := by
  intro loop spread compile
  have hagree : ∀ text text' : String, (Scan.tokenize {} 0 text.toList).2.isOk = true →
      (Scan.tokenize {} 0 text'.toList).2.isOk = true →
      (Scan.tokenize {} 0 text.toList).2.toOption.map (·.map Token.lexeme) =
        (Scan.tokenize {} 0 text'.toList).2.toOption.map (·.map Token.lexeme) →
      Agree (compile text) (compile text') := by
    intro text text' hok hok' hsame
    obtain ⟨tokens, htokens⟩ := ok_of_isOk hok
    obtain ⟨tokens', htokens'⟩ := ok_of_isOk hok'
    rw [htokens, htokens'] at hsame
    exact compiled_layout htokens htokens' (Option.some.inj hsame) "a.sw" "a.sw"
  refine ⟨by decide +kernel, hagree loop spread ?_ ?_ ?_, by decide +kernel,
    hagree (loop ++ "break") (spread ++ "break") ?_ ?_ ?_⟩
  all_goals decide +kernel

end Compilation

end BlockLang

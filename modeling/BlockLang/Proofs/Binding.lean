import BlockLang.Proofs.Tables

/-! What names mean. A place in a tree sees the declarations in front of it in the bodies around it; a
name stands for the latest one in the innermost body that has one. The tree with slots is the typed
tree with each name replaced by the slot of the declaration that it stands for, and the slots are
handed out in the order in which the initial values end. -/

namespace BlockLang

/-- A declaration of a variable. -/
structure Declaration (P : Phase) where
  type : Ty
  name : P.Name
  init : Expr P
  mark : P.Mark

/-- A use of a variable, with the statements in front of it: those of the innermost body around it
come first. -/
structure Use (P : Phase) where
  front : List (Body P)
  name : P.Name
  tag : P.Tag

section Shapes

variable {P : Phase}

def Stmt.declaration? : Stmt P → Option (Declaration P)
  | .declare type name init mark => some ⟨type, name, init, mark⟩
  | .write _ _ _ _ | .leave _ | .again _ | .expr _ _ => none

/-- The declarations of a body, the latest first. -/
def Body.latest (body : Body P) : List (Declaration P) := body.reverse.filterMap Stmt.declaration?

/-- The declaration that some statements in front of a place select: the latest one in the innermost
body that has one. -/
def declaration? (front : List (Body P)) (wanted : P.Name → Bool) : Option (Declaration P) :=
  front.findSome? fun body => (Body.latest body).find? (wanted ·.name)

mutual

/-- The declarations in an expression, in the order in which their initial values end. -/
def Expr.declared : Expr P → List (Declaration P)
  | .int _ _ | .string _ _ | .bool _ _ | .unit _ | .var _ _ => []
  | .assign _ value _ => value.declared
  | .unary _ operand _ => operand.declared
  | .binary _ left right _ => left.declared ++ right.declared
  | .block body _ => Body.declared body
  | .choice cond body others _ => cond.declared ++ Body.declared body ++ others.declared
  | .loop cond body _ => cond.declared ++ Body.declared body

/-- The declarations in the later branches of a choice. -/
def Branches.declared : Branches P → List (Declaration P)
  | .done => []
  | .otherwise body => Body.declared body
  | .orIf cond body others => cond.declared ++ Body.declared body ++ others.declared

def Body.declared : List (Stmt P) → List (Declaration P)
  | [] => []
  | s :: rest => s.declared ++ Body.declared rest

def Stmt.declared : Stmt P → List (Declaration P)
  | .declare type name init mark => init.declared ++ [⟨type, name, init, mark⟩]
  | .write _ value _ _ => value.declared
  | .leave _ | .again _ => []
  | .expr value _ => value.declared

end

mutual

/-- The uses of variables in an expression that has some statements in front of it. -/
def Expr.uses (front : List (Body P)) : Expr P → List (Use P)
  | .int _ _ | .string _ _ | .bool _ _ | .unit _ => []
  | .var name tag => [⟨front, name, tag⟩]
  | .assign name value tag => value.uses front ++ [⟨front, name, tag⟩]
  | .unary _ operand _ => operand.uses front
  | .binary _ left right _ => left.uses front ++ right.uses front
  | .block body _ => Body.uses front [] body
  | .choice cond body others _ => cond.uses front ++ Body.uses front [] body ++ others.uses front
  | .loop cond body _ => cond.uses front ++ Body.uses front [] body

/-- The uses in the later branches of a choice. -/
def Branches.uses (front : List (Body P)) : Branches P → List (Use P)
  | .done => []
  | .otherwise body => Body.uses front [] body
  | .orIf cond body others => cond.uses front ++ Body.uses front [] body ++ others.uses front

/-- The uses in the rest of a body, behind the statements `before`. -/
def Body.uses (outer : List (Body P)) (before : Body P) : List (Stmt P) → List (Use P)
  | [] => []
  | s :: rest => s.uses (before :: outer) ++ Body.uses outer (before ++ [s]) rest

def Stmt.uses (front : List (Body P)) : Stmt P → List (Use P)
  | .declare _ _ init _ => init.uses front
  | .write _ value _ _ => value.uses front
  | .leave _ | .again _ => []
  | .expr value _ => value.uses front

end

/-- The declarations that a place sees, the nearest first. -/
def visible (front : List (Body P)) : List (Declaration P) := front.flatMap Body.latest

theorem declaration?_eq_find? (front : List (Body P)) (wanted : P.Name → Bool) :
    declaration? front wanted = (visible front).find? (wanted ·.name) :=
  List.find?_flatMap.symm

theorem visible_after (outer : List (Body P)) (before : Body P) (s : Stmt P) :
    visible ((before ++ [s]) :: outer) = s.declaration?.toList ++ visible (before :: outer) := by
  have hlatest : Body.latest (before ++ [s]) = s.declaration?.toList ++ Body.latest before := by
    rw [Body.latest, List.reverse_append, List.reverse_singleton, List.singleton_append,
      List.filterMap_cons]
    cases s.declaration? <;> rfl
  rw [visible, visible, List.flatMap_cons, List.flatMap_cons, hlatest, List.append_assoc]

end Shapes

/-! ### Renamed trees -/

section Rename

variable {Name Name' Tag Mark : Type} (f : Name → Name')

mutual

def Expr.rename : Expr ⟨Name, Tag, Mark⟩ → Expr ⟨Name', Tag, Mark⟩
  | .int value t => .int value t
  | .string value t => .string value t
  | .bool value t => .bool value t
  | .unit t => .unit t
  | .var name t => .var (f name) t
  | .assign name value t => .assign (f name) value.rename t
  | .unary op operand t => .unary op operand.rename t
  | .binary op left right t => .binary op left.rename right.rename t
  | .block body t => .block (Body.rename body) t
  | .choice cond body others t => .choice cond.rename (Body.rename body) others.rename t
  | .loop cond body t => .loop cond.rename (Body.rename body) t

/-- The later branches of a choice with other names. -/
def Branches.rename : Branches ⟨Name, Tag, Mark⟩ → Branches ⟨Name', Tag, Mark⟩
  | .done => .done
  | .otherwise body => .otherwise (Body.rename body)
  | .orIf cond body others => .orIf cond.rename (Body.rename body) others.rename

def Body.rename : List (Stmt ⟨Name, Tag, Mark⟩) → List (Stmt ⟨Name', Tag, Mark⟩)
  | [] => []
  | s :: rest => s.rename :: Body.rename rest

def Stmt.rename : Stmt ⟨Name, Tag, Mark⟩ → Stmt ⟨Name', Tag, Mark⟩
  | .declare type name init m => .declare type (f name) init.rename m
  | .write newline value shown m => .write newline value.rename shown m
  | .leave m => .leave m
  | .again m => .again m
  | .expr value m => .expr value.rename m

end

end Rename

/-- Names together with their slots, and the type of every expression and statement. -/
abbrev Phase.slotted : Phase := ⟨String × Nat, Ty, Ty⟩

/-- A use that has the slot and the type of the declaration that its name stands for. -/
def Use.Bound (u : Use .slotted) : Prop :=
  ∃ d, declaration? u.front (·.1 == u.name.1) = some d ∧ d.name = u.name ∧ d.type = u.tag

/-- The variables that scope and slots have at a place are those that the place sees. -/
structure Sees (scope : Scope) (σ : Slots) (front : List (Body .slotted)) : Prop where
  vars : scope.vars = (visible front).map fun d => (d.name.1, d.type)
  names : σ.names = (visible front).map fun d => (d.name.1, d.name.2)

theorem lookup_map_eq_find? {α β : Type} (xs : List α) (key : α → String) (value : α → β)
    (name : String) :
    (xs.map fun x => (key x, value x)).lookup name = (xs.find? (key · == name)).map value := by
  induction xs with
  | nil => rfl
  | cons x xs ih =>
      by_cases hx : key x = name
      · simp [hx]
      · rw [List.map_cons, List.lookup_cons, List.find?_cons, beq_false_of_ne hx,
          beq_false_of_ne (Ne.symm hx)]
        exact ih

namespace Sees

variable {scope : Scope} {σ σ' : Slots} {front : List (Body .slotted)}

theorem enter (h : Sees scope σ front) : Sees scope.child σ ([] :: front) := ⟨h.vars, h.names⟩

theorem keeps {n : Nat} (h : Sees scope σ front) (hk : Resolve.Keeps σ σ' n) : Sees scope σ' front :=
  ⟨h.vars, hk.names.trans h.names⟩

/-- A name that has a type and a slot has those of its declaration: both are looked up by the same name. -/
theorem bound (h : Sees scope σ front) {name : String} {t : Ty} {slot : Nat}
    (ht : scope.type? name = some t) (hslot : σ.names.lookup name = some slot) :
    Use.Bound ⟨front, (name, slot), t⟩ := by
  rw [Scope.type?, h.vars, lookup_map_eq_find? (visible front) (·.name.1)] at ht
  rw [h.names, lookup_map_eq_find? (visible front) (·.name.1)] at hslot
  obtain ⟨d, hd, rfl⟩ := Option.map_eq_some_iff.mp ht
  rw [hd] at hslot
  obtain rfl : d.name.2 = slot := Option.some.inj hslot
  have hname : d.name.1 = name := by simpa using List.find?_some hd
  refine ⟨d, ?_, Prod.ext hname rfl, rfl⟩
  rw [declaration?_eq_find?]
  exact hd

theorem declare {outer : List (Body .slotted)} {before : Body .slotted} {n slot : Nat}
    (h : Sees scope σ (before :: outer)) (hk : Resolve.Keeps σ σ' n) (type : Ty) (name : String)
    (init : Expr .slotted) (m : Ty) :
    Sees (scope.declare name type) { names := (name, slot) :: σ'.names, next := slot + 1 }
      ((before ++ [.declare type (name, slot) init m]) :: outer) := by
  refine ⟨?_, ?_⟩
  · rw [visible_after, Scope.declare, h.vars]
    rfl
  · rw [visible_after, hk.names, h.names]
    rfl

theorem next {outer : List (Body .slotted)} {before : Body .slotted} {n : Nat} {s : Stmt .slotted}
    (h : Sees scope σ (before :: outer)) (hk : Resolve.Keeps σ σ' n) (hs : s.declaration? = none) :
    Sees scope σ' ((before ++ [s]) :: outer) := by
  refine ⟨?_, ?_⟩
  · rw [visible_after, hs, h.vars]
    rfl
  · rw [visible_after, hs, hk.names, h.names]
    rfl

end Sees

namespace Resolve

mutual

/-- Beside the tree with slots there is one that keeps the names as well, in which every use is bound. -/
theorem expr_binds : ∀ (e : Expr .typed) {scope : Scope} {inLoop : Bool} {σ σ' : Slots}
    {e' : Expr .resolved} {front : List (Body .slotted)}, e.WellTyped scope inLoop →
    expr e σ = .ok (e', σ') → Sees scope σ front →
      ∃ b : Expr .slotted, b.rename Prod.fst = e ∧ b.rename Prod.snd = e' ∧
        ∀ u ∈ b.uses front, u.Bound
  | .int value t, _, _, _, _, _, _, _, h, _ => by
      cases h
      exact ⟨.int value t, rfl, rfl, List.forall_mem_nil _⟩
  | .string value t, _, _, _, _, _, _, _, h, _ => by
      cases h
      exact ⟨.string value t, rfl, rfl, List.forall_mem_nil _⟩
  | .bool value t, _, _, _, _, _, _, _, h, _ => by
      cases h
      exact ⟨.bool value t, rfl, rfl, List.forall_mem_nil _⟩
  | .unit t, _, _, _, _, _, _, _, h, _ => by
      cases h
      exact ⟨.unit t, rfl, rfl, List.forall_mem_nil _⟩
  | .var name t, _, _, _, _, _, _, ht, h, hsees => by
      obtain ⟨slot, hslot, rfl, rfl⟩ := var_inv h
      exact ⟨.var (name, slot) t, rfl, rfl, List.forall_mem_singleton.mpr (hsees.bound ht hslot)⟩
  | .assign name value t, _, _, _, _, _, _, ht, h, hsees => by
      obtain ⟨hvalue, -, hname⟩ := ht
      obtain ⟨v, slot, hv, hslot, rfl⟩ := assign_inv h
      obtain ⟨b, hb, hb', hu⟩ := expr_binds value hvalue hv hsees
      have hbound := (hsees.keeps (expr_keeps value hv).2).bound hname hslot
      exact ⟨.assign (name, slot) b t, by simp only [Expr.rename, hb], by simp only [Expr.rename, hb'],
        List.forall_mem_append.mpr ⟨hu, List.forall_mem_singleton.mpr hbound⟩⟩
  | .unary op operand t, _, _, _, _, _, _, ht, h, hsees => by
      obtain ⟨v, hv, rfl⟩ := unary_inv h
      obtain ⟨b, hb, hb', hu⟩ := expr_binds operand ht.1 hv hsees
      exact ⟨.unary op b t, by simp only [Expr.rename, hb], by simp only [Expr.rename, hb'], hu⟩
  | .binary op left right t, _, _, _, _, _, _, ht, h, hsees => by
      obtain ⟨l, r, σ₁, hl, hr, rfl⟩ := binary_inv h
      obtain ⟨bl, hbl, hbl', hul⟩ := expr_binds left ht.1 hl hsees
      obtain ⟨br, hbr, hbr', hur⟩ :=
        expr_binds right ht.2.1 hr (hsees.keeps (expr_keeps left hl).2)
      exact ⟨.binary op bl br t, by simp only [Expr.rename, hbl, hbr],
        by simp only [Expr.rename, hbl', hbr'], List.forall_mem_append.mpr ⟨hul, hur⟩⟩
  | .block body t, _, _, _, _, _, _, ht, h, hsees => by
      obtain ⟨b, σ₁, hs, rfl, rfl⟩ := block_inv h
      obtain ⟨b, hb, hb', hu⟩ := stmts_binds body ht.1 hs hsees.enter
      exact ⟨.block b t, by simp only [Expr.rename, hb], by simp only [Expr.rename, hb'], hu⟩
  | .choice cond body others t, _, _, _, _, _, _, ht, h, hsees => by
      obtain ⟨htc, -, htb, -, hto⟩ := ht
      obtain ⟨c, b, o, σ₁, σ₂, hc, hs, ho, rfl⟩ := choice_inv h
      have hsees₁ := hsees.keeps (expr_keeps cond hc).2
      obtain ⟨bc, hbc, hbc', huc⟩ := expr_binds cond htc hc hsees
      obtain ⟨bb, hbb, hbb', hub⟩ := stmts_binds body htb hs hsees₁.enter
      obtain ⟨bo, hbo, hbo', huo⟩ := branches_binds others hto ho ⟨hsees₁.vars, hsees₁.names⟩
      exact ⟨.choice bc bb bo t, by simp only [Expr.rename, hbc, hbb, hbo],
        by simp only [Expr.rename, hbc', hbb', hbo'],
        List.forall_mem_append.mpr ⟨List.forall_mem_append.mpr ⟨huc, hub⟩, huo⟩⟩
  | .loop cond body t, _, _, _, _, _, _, ht, h, hsees => by
      obtain ⟨htc, -, htb, -⟩ := ht
      obtain ⟨c, b, σ₁, σ₂, hc, hs, rfl, rfl⟩ := loop_inv h
      have hsees₁ := hsees.keeps (expr_keeps cond hc).2
      obtain ⟨bc, hbc, hbc', huc⟩ := expr_binds cond htc hc hsees
      obtain ⟨bb, hbb, hbb', hub⟩ := stmts_binds body htb hs hsees₁.enter
      exact ⟨.loop bc bb t, by simp only [Expr.rename, hbc, hbb],
        by simp only [Expr.rename, hbc', hbb'], List.forall_mem_append.mpr ⟨huc, hub⟩⟩

/-- The later branches of a choice use names of their own declarations or of those in front. -/
theorem branches_binds : ∀ (b : Branches .typed) {scope : Scope} {inLoop : Bool} {t : Ty}
    {σ σ' : Slots} {b' : Branches .resolved} {front : List (Body .slotted)},
    b.WellTyped scope inLoop t → branches b σ = .ok (b', σ') → Sees scope σ front →
      ∃ d : Branches .slotted, d.rename Prod.fst = b ∧ d.rename Prod.snd = b' ∧
        ∀ u ∈ d.uses front, u.Bound
  | .done, _, _, _, _, _, _, _, _, h, _ => by
      cases h
      exact ⟨.done, rfl, rfl, List.forall_mem_nil _⟩
  | .otherwise body, _, _, _, _, _, _, _, ht, h, hsees => by
      obtain ⟨b, σ₁, hs, rfl, rfl⟩ := otherwise_inv h
      obtain ⟨b, hb, hb', hu⟩ := stmts_binds body ht.1 hs hsees.enter
      exact ⟨.otherwise b, by simp only [Branches.rename, hb], by simp only [Branches.rename, hb'], hu⟩
  | .orIf cond body others, _, _, _, _, _, _, _, ht, h, hsees => by
      obtain ⟨htc, -, htb, -, hto⟩ := ht
      obtain ⟨c, b, o, σ₁, σ₂, hc, hs, ho, rfl⟩ := orIf_inv h
      have hsees₁ := hsees.keeps (expr_keeps cond hc).2
      obtain ⟨bc, hbc, hbc', huc⟩ := expr_binds cond htc hc hsees
      obtain ⟨bb, hbb, hbb', hub⟩ := stmts_binds body htb hs hsees₁.enter
      obtain ⟨bo, hbo, hbo', huo⟩ := branches_binds others hto ho ⟨hsees₁.vars, hsees₁.names⟩
      exact ⟨.orIf bc bb bo, by simp only [Branches.rename, hbc, hbb, hbo],
        by simp only [Branches.rename, hbc', hbb', hbo'],
        List.forall_mem_append.mpr ⟨List.forall_mem_append.mpr ⟨huc, hub⟩, huo⟩⟩

/-- Every use in the rest of a body is bound, given the statements in front of it. -/
theorem stmts_binds : ∀ (body : List (Stmt .typed)) {scope : Scope} {inLoop : Bool} {σ σ' : Slots}
    {b' : Body .resolved} {before : Body .slotted} {outer : List (Body .slotted)},
    Body.WellTyped scope inLoop body → stmts body σ = .ok (b', σ') → Sees scope σ (before :: outer) →
      ∃ b : Body .slotted, Body.rename Prod.fst b = body ∧ Body.rename Prod.snd b = b' ∧
        ∀ u ∈ Body.uses outer before b, u.Bound
  | [], _, _, _, _, _, _, _, _, h, _ => by
      cases h
      exact ⟨[], rfl, rfl, List.forall_mem_nil _⟩
  | s :: rest, _, _, _, _, _, _, _, ht, h, hsees => by
      obtain ⟨hts, -, htr⟩ := ht
      obtain ⟨first, later, σ₁, hs, hr, rfl⟩ := stmts_cons_inv h
      obtain ⟨bs, hbs, hbs', hus, hsees₁⟩ := stmt_binds s hts hs hsees
      obtain ⟨br, hbr, hbr', hur⟩ := stmts_binds rest htr hr hsees₁
      exact ⟨bs :: br, by simp only [Body.rename, hbs, hbr], by simp only [Body.rename, hbs', hbr'],
        List.forall_mem_append.mpr ⟨hus, hur⟩⟩

/-- Every use in a statement is bound, and the statement's own declaration is seen behind it. -/
theorem stmt_binds : ∀ (s : Stmt .typed) {scope : Scope} {inLoop : Bool} {σ σ' : Slots}
    {s' : Stmt .resolved} {before : Body .slotted} {outer : List (Body .slotted)},
    s.WellTyped scope inLoop → stmt s σ = .ok (s', σ') → Sees scope σ (before :: outer) →
      ∃ b : Stmt .slotted, b.rename Prod.fst = s ∧ b.rename Prod.snd = s' ∧
        (∀ u ∈ b.uses (before :: outer), u.Bound) ∧
        Sees (scope.after s) σ' ((before ++ [b]) :: outer)
  | .declare type name init m, _, _, _, _, _, _, _, ht, h, hsees => by
      obtain ⟨i, σ₁, hi, rfl, rfl⟩ := declare_inv h
      obtain ⟨b, hb, hb', hu⟩ := expr_binds init ht.2.1 hi hsees
      exact ⟨.declare type (name, σ₁.next) b m, by simp only [Stmt.rename, hb],
        by simp only [Stmt.rename, hb'], hu, hsees.declare (expr_keeps init hi).2 type name b m⟩
  | .write newline value shown m, _, _, _, _, _, _, _, ht, h, hsees => by
      obtain ⟨v, hv, rfl⟩ := write_inv h
      obtain ⟨b, hb, hb', hu⟩ := expr_binds value ht.1 hv hsees
      exact ⟨.write newline b shown m, by simp only [Stmt.rename, hb],
        by simp only [Stmt.rename, hb'], hu, hsees.next (expr_keeps value hv).2 rfl⟩
  | .leave m, _, _, _, _, _, _, _, _, h, hsees => by
      cases h
      exact ⟨.leave m, rfl, rfl, List.forall_mem_nil _, hsees.next Keeps.rfl rfl⟩
  | .again m, _, _, _, _, _, _, _, _, h, hsees => by
      cases h
      exact ⟨.again m, rfl, rfl, List.forall_mem_nil _, hsees.next Keeps.rfl rfl⟩
  | .expr value m, _, _, _, _, _, _, _, ht, h, hsees => by
      obtain ⟨v, hv, rfl⟩ := expr_stmt_inv h
      obtain ⟨b, hb, hb', hu⟩ := expr_binds value ht.1 hv hsees
      exact ⟨.expr b m, by simp only [Stmt.rename, hb], by simp only [Stmt.rename, hb'], hu,
        hsees.next (expr_keeps value hv).2 rfl⟩

end

end Resolve

/-- Declarations that have slots in a row, and whose initial values name only slots below their own. -/
structure Numbered (first count : Nat) (ds : List (Declaration .resolved)) : Prop where
  slots : ds.map (·.name) = List.range' first count
  inits : ∀ d ∈ ds, d.init.Below d.name

namespace Numbered

variable {first middle m n : Nat} {ds ds' : List (Declaration .resolved)}

theorem nil (first : Nat) : Numbered first 0 [] := ⟨rfl, List.forall_mem_nil _⟩

theorem append (h : Numbered first m ds) (h' : Numbered middle n ds') (hmiddle : middle = first + m) :
    Numbered first (m + n) (ds ++ ds') := by
  refine ⟨?_, List.forall_mem_append.mpr ⟨h.inits, h'.inits⟩⟩
  rw [List.map_append, h.slots, h'.slots, hmiddle, List.range'_append_1]

theorem single {d : Declaration .resolved} (h : d.init.Below d.name) : Numbered d.name 1 [d] :=
  ⟨rfl, List.forall_mem_singleton.mpr h⟩

end Numbered

namespace Resolve

mutual

/-- The declarations of an expression get the next free slots, in order. -/
theorem expr_numbered : ∀ (e : Expr .typed) {σ σ' : Slots} {e' : Expr .resolved},
    expr e σ = .ok (e', σ') → σ.Tidy → Numbered σ.next e'.declarations e'.declared
  | .int _ _, _, _, _, h, _ | .string _ _, _, _, _, h, _ | .bool _ _, _, _, _, h, _
  | .unit _, _, _, _, h, _ => by
      cases h
      exact .nil _
  | .var name t, _, _, _, h, _ => by
      obtain ⟨slot, -, -, rfl⟩ := var_inv h
      exact .nil _
  | .assign name value t, _, _, _, h, ht => by
      obtain ⟨v, slot, hv, -, rfl⟩ := assign_inv h
      have hvalue := expr_numbered value hv ht
      exact hvalue
  | .unary op operand t, _, _, _, h, ht => by
      obtain ⟨v, hv, rfl⟩ := unary_inv h
      have hoperand := expr_numbered operand hv ht
      exact hoperand
  | .binary op left right t, _, _, _, h, ht => by
      obtain ⟨l, r, σ₁, hl, hr, rfl⟩ := binary_inv h
      have hk := (expr_keeps left hl).2
      exact (expr_numbered left hl ht).append (expr_numbered right hr (hk.tidy ht)) hk.next
  | .block body t, _, _, _, h, ht => by
      obtain ⟨b, σ₁, hs, rfl, rfl⟩ := block_inv h
      exact stmts_numbered body hs ht
  | .choice cond body others t, _, _, _, h, ht => by
      obtain ⟨c, b, o, σ₁, σ₂, hc, hs, ho, rfl⟩ := choice_inv h
      have hk := (expr_keeps cond hc).2
      have hkb := block_keeps hs
      have hcond := (expr_numbered cond hc ht).append (stmts_numbered body hs (hk.tidy ht)) hk.next
      exact hcond.append (branches_numbered others ho (hkb.tidy (hk.tidy ht))) (hk.trans hkb).next
  | .loop cond body t, _, _, _, h, ht => by
      obtain ⟨c, b, σ₁, σ₂, hc, hs, rfl, rfl⟩ := loop_inv h
      have hk := (expr_keeps cond hc).2
      exact (expr_numbered cond hc ht).append (stmts_numbered body hs (hk.tidy ht)) hk.next

theorem branches_numbered : ∀ (b : Branches .typed) {σ σ' : Slots} {b' : Branches .resolved},
    branches b σ = .ok (b', σ') → σ.Tidy → Numbered σ.next b'.declarations b'.declared
  | .done, _, _, _, h, _ => by
      cases h
      exact .nil _
  | .otherwise body, _, _, _, h, ht => by
      obtain ⟨b, σ₁, hs, rfl, rfl⟩ := otherwise_inv h
      exact stmts_numbered body hs ht
  | .orIf cond body others, _, _, _, h, ht => by
      obtain ⟨c, b, o, σ₁, σ₂, hc, hs, ho, rfl⟩ := orIf_inv h
      have hk := (expr_keeps cond hc).2
      have hkb := block_keeps hs
      have hcond := (expr_numbered cond hc ht).append (stmts_numbered body hs (hk.tidy ht)) hk.next
      exact hcond.append (branches_numbered others ho (hkb.tidy (hk.tidy ht))) (hk.trans hkb).next

theorem stmts_numbered : ∀ (body : List (Stmt .typed)) {σ σ' : Slots} {b' : Body .resolved},
    stmts body σ = .ok (b', σ') → σ.Tidy → Numbered σ.next (Body.declarations b') (Body.declared b')
  | [], _, _, _, h, _ => by
      cases h
      exact .nil _
  | s :: rest, _, _, _, h, ht => by
      obtain ⟨first, later, σ₁, hs, hr, rfl⟩ := stmts_cons_inv h
      have hg := stmt_grows s hs
      exact (stmt_numbered s hs ht).append (stmts_numbered rest hr (hg.tidy ht)) hg.next

/-- The declarations in a statement get the next free slots, in the order of the text. -/
theorem stmt_numbered : ∀ (s : Stmt .typed) {σ σ' : Slots} {s' : Stmt .resolved},
    stmt s σ = .ok (s', σ') → σ.Tidy → Numbered σ.next s'.declarations s'.declared
  | .declare type name init m, _, _, _, h, ht => by
      obtain ⟨i, σ₁, hi, rfl, rfl⟩ := declare_inv h
      have hbelow : i.Below σ₁.next := (expr_tables init hi).2 ht (Nat.le_refl _)
      have hlast := Numbered.single (d := ⟨type, σ₁.next, i, m⟩) hbelow
      exact (expr_numbered init hi ht).append hlast (expr_keeps init hi).2.next
  | .write newline value shown m, _, _, _, h, ht => by
      obtain ⟨v, hv, rfl⟩ := write_inv h
      have hvalue := expr_numbered value hv ht
      exact hvalue
  | .leave _, _, _, _, h, _ | .again _, _, _, _, h, _ => by
      cases h
      exact .nil _
  | .expr value m, _, _, _, h, ht => by
      obtain ⟨v, hv, rfl⟩ := expr_stmt_inv h
      have hvalue := expr_numbered value hv ht
      exact hvalue

end

end Resolve

/-- The slots of a program are numbered in the order of its declarations. -/
theorem resolve_numbered {program : Body .typed} {body : Body .resolved} {slots : Nat}
    (h : resolve program = .ok (body, slots)) : Numbered 0 slots (Body.declared body) := by
  rw [resolve_slots h]
  obtain ⟨σ, hs, -⟩ := resolve_ok.mp h
  exact Resolve.stmts_numbered program hs ⟨List.nodup_nil, List.forall_mem_nil _⟩

/-- A tree in which every use has the slot and the type of the declaration that its name stands for is
the typed tree up to the slots, and the tree with slots up to the names. -/
theorem resolve_binds {program : Body .typed} {body : Body .resolved} {slots : Nat}
    (htyped : Body.WellTyped {} false program) (h : resolve program = .ok (body, slots)) :
    ∃ both : Body .slotted, Body.rename Prod.fst both = program ∧ Body.rename Prod.snd both = body ∧
      ∀ u ∈ Body.uses [] [] both, u.Bound := by
  obtain ⟨σ, hs, -⟩ := resolve_ok.mp h
  exact Resolve.stmts_binds program htyped hs ⟨rfl, rfl⟩

end BlockLang

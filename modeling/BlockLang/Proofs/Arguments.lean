import BlockLang.CommandLine.FlagSet
import Mathlib.Data.List.Basic
import Mathlib.Data.List.TakeWhile

/-! The reading of command lines. A command line is read piece by piece: an argument that is no flag, a flag
with all that belongs to it in one argument, or a flag and the argument behind it that it takes. So every
argument belongs to one piece, and a command line that was read to its end can be continued: reading two
lists of arguments together is reading the second with what the first one left behind. -/

namespace BlockLang.FlagSet

/-- What is read at once. -/
inductive Piece where
  | positional (arg : String)
  | flag (arg : String)
  /-- A flag and the argument that it takes. -/
  | valued (arg value : String)
  deriving DecidableEq

def Piece.arguments : Piece → List String
  | positional arg | flag arg => [arg]
  | valued arg value => [arg, value]

def Piece.positionals : Piece → List String
  | positional arg => [arg]
  | flag _ | valued _ _ => []

/-- Reading some pieces turns one set of flags into another. -/
inductive Reads : FlagSet → List Piece → FlagSet → Prop where
  | nil {f : FlagSet} : Reads f [] f
  | positional {f g : FlagSet} {arg : String} {ps : List Piece} : f.read arg = .positional →
      Reads { f with args := f.args ++ [arg] } ps g → Reads f (.positional arg :: ps) g
  | flag {f f' g : FlagSet} {arg name : String} {texts : List String} {ps : List Piece} :
      f.read arg = .sets name texts none → f.setAll name texts = (f', none) → Reads f' ps g →
      Reads f (.flag arg :: ps) g
  | valued {f f' g : FlagSet} {arg value name shown : String} {ps : List Piece} :
      f.read arg = .wants name shown → f.set name value = (f', none) → Reads f' ps g →
      Reads f (.valued arg value :: ps) g

/-- A command line in pieces, and what stands behind a `--`, if there is one. -/
structure Division where
  pieces : List Piece
  behind : Option (List String) := none
  deriving DecidableEq

/-- All arguments of a command line. -/
def Division.arguments (d : Division) : List String :=
  d.pieces.flatMap Piece.arguments ++ match d.behind with
    | none => []
    | some rest => "--" :: rest

/-- The arguments of a command line that are no part of a flag. -/
def Division.positionals (d : Division) : List String :=
  d.pieces.flatMap Piece.positionals ++ d.behind.getD []

variable {f g : FlagSet} {ps : List Piece} {arg : String} {xs ys rest : List String}

theorem find?_update {name : String} {change : Flag → Flag} (hchange : ∀ flag, (change flag).name = flag.name)
    (other : String) :
    (f.update name change).find? other
      = (f.find? other).map fun flag => if flag.name = name then change flag else flag := by
  rw [find?, update, List.find?_map, find?]
  congr 2
  funext flag
  simp only [Function.comp_apply]
  split
  · rw [hchange]
  · rfl

theorem name_of_find? {name : String} {flag : Flag} (h : f.find? name = some flag) : flag.name = name := by
  simpa using List.find?_some h

theorem splitAssignment_name {cs : List Char} (h : '=' ∉ cs) :
    splitAssignment cs = (String.ofList cs, none) := by
  have hall : ∀ c ∈ cs, decide (c ≠ '=') = true := by
    intro c hc
    exact decide_eq_true (fun heq => h (heq ▸ hc))
  rw [splitAssignment, List.takeWhile_eq_self_iff.mpr hall, List.dropWhile_eq_nil_iff.mpr hall]

theorem splitAssignment_value {cs : List Char} (h : '=' ∉ cs) (value : List Char) :
    splitAssignment (cs ++ '=' :: value) = (String.ofList cs, some (String.ofList value)) := by
  have hall : ∀ c ∈ cs, decide (c ≠ '=') = true := by
    intro c hc
    exact decide_eq_true (fun heq => h (heq ▸ hc))
  rw [splitAssignment, List.takeWhile_append_of_pos hall, List.dropWhile_append_of_pos hall]
  simp

theorem read_positional (f : FlagSet) {arg : String} (h : arg.toList.head? ≠ some '-') :
    f.read arg = .positional := by
  unfold read
  split
  · exact absurd (congrArg List.head? ‹_›) h
  · exact absurd (congrArg List.head? ‹_›) h
  · exact absurd (congrArg List.head? ‹_›) h
  · rfl

theorem read_terminator (f : FlagSet) : f.read "--" = .terminator := rfl

/-- Only two dashes alone end the flags. -/
theorem eq_of_read_terminator (h : f.read arg = .terminator) : arg = "--" := by
  have hlong : ∀ dashes body, f.readLong dashes body ≠ .terminator := by
    intro dashes body
    rw [readLong]
    grind
  have hshort : ∀ letter rest, f.readShort letter rest ≠ .terminator := by
    intro letter rest
    rw [readShort]
    grind
  rw [read.eq_def] at h
  split at h
  case h_1 hlist => exact String.toList_inj.mp hlist
  case h_2 => exact absurd h (hlong _ _)
  case h_3 =>
    dsimp only at h
    split at h
    · exact absurd h (hlong _ _)
    · exact absurd h (hshort _ _)
  case h_4 => cases h

section Steps

variable {name shown value : String} {texts : List String}

attribute [local simp] parseMore

theorem parseMore_positional (h : f.read arg = .positional) :
    f.parseMore (arg :: rest) = parseMore { f with args := f.args ++ [arg] } rest := by
  simp [h]

theorem parseMore_terminator (f : FlagSet) (rest : List String) :
    f.parseMore ("--" :: rest) = ({ f with args := f.args ++ rest }, none) := by
  simp [read_terminator]

theorem parseMore_refused {e : FlagError} (h : f.read arg = .refused e) :
    f.parseMore (arg :: rest) = (f, some e) := by
  simp [h]

theorem parseMore_flag (h : f.read arg = .sets name texts none) (hset : f.setAll name texts = (g, none)) :
    f.parseMore (arg :: rest) = g.parseMore rest := by
  simp [h, hset]

theorem parseMore_unset {refusal : Option FlagError} {e : FlagError}
    (h : f.read arg = .sets name texts refusal) (hset : f.setAll name texts = (g, some e)) :
    f.parseMore (arg :: rest) = (g, some e) := by
  simp [h, hset]

theorem parseMore_overlong {e : FlagError} (h : f.read arg = .sets name texts (some e))
    (hset : f.setAll name texts = (g, none)) : f.parseMore (arg :: rest) = (g, some e) := by
  simp [h, hset]

theorem parseMore_lacking (h : f.read arg = .wants name shown) :
    f.parseMore [arg] = (f, some (.needsArgument shown)) := by
  simp [h]

theorem parseMore_valued (h : f.read arg = .wants name shown) (hset : f.set name value = (g, none)) :
    f.parseMore (arg :: value :: rest) = g.parseMore rest := by
  simp [h, hset]

theorem parseMore_unfit {e : FlagError} (h : f.read arg = .wants name shown)
    (hset : f.set name value = (g, some e)) : f.parseMore (arg :: value :: rest) = (g, some e) := by
  simp [h, hset]

end Steps

/-- Puts arguments in front of those that were read. -/
def ahead (f : FlagSet) (args : List String) : FlagSet := { f with args := args ++ f.args }

theorem read_ahead (f : FlagSet) (args : List String) (arg : String) :
    (f.ahead args).read arg = f.read arg := rfl

theorem ahead_append (f : FlagSet) (args more : List String) :
    { f.ahead args with args := (f.ahead args).args ++ more } = ahead { f with args := f.args ++ more } args := by
  simp only [ahead, List.append_assoc]

theorem set_ahead (f : FlagSet) (args : List String) (name text : String) :
    (f.ahead args).set name text = ((f.set name text).1.ahead args, (f.set name text).2) := by
  have hfind : (f.ahead args).find? name = f.find? name := rfl
  rw [set, set, hfind]
  cases f.find? name with
  | none => rfl
  | some flag =>
      dsimp only
      cases flag.value.set text <;> rfl

theorem setAll_ahead (f : FlagSet) (args : List String) (name : String) (texts : List String) :
    (f.ahead args).setAll name texts = ((f.setAll name texts).1.ahead args, (f.setAll name texts).2) := by
  induction texts generalizing f with
  | nil => rfl
  | cons text texts ih =>
      rw [setAll, setAll, set_ahead]
      rcases f.set name text with ⟨g, _ | e⟩
      · exact ih g
      · rfl

/-- What was read before has no bearing on what is read. -/
theorem parseMore_ahead (f : FlagSet) (args xs : List String) :
    (f.ahead args).parseMore xs = ((f.parseMore xs).1.ahead args, (f.parseMore xs).2) := by
  have hset : ∀ {f g : FlagSet} {name text : String} {r : Option FlagError}, f.set name text = (g, r) →
      (f.ahead args).set name text = (g.ahead args, r) := by
    intro f g name text r h
    rw [set_ahead, h]
  have hsetAll : ∀ {f g : FlagSet} {name : String} {texts : List String} {r : Option FlagError},
      f.setAll name texts = (g, r) → (f.ahead args).setAll name texts = (g.ahead args, r) := by
    intro f g name texts r h
    rw [setAll_ahead, h]
  fun_induction parseMore f xs with
  | case1 f => rfl
  | case2 f arg rest h ih =>
      rw [parseMore_positional ((read_ahead f args arg).trans h), ahead_append]
      exact ih
  | case3 f arg rest h =>
      obtain rfl := eq_of_read_terminator h
      rw [parseMore_terminator, ahead_append]
  | case4 f arg rest e h => exact parseMore_refused h
  | case5 f arg rest name texts refusal h g e hg => exact parseMore_unset h (hsetAll hg)
  | case6 f arg rest name texts g e hg h => exact parseMore_overlong h (hsetAll hg)
  | case7 f arg rest name texts g hg h ih =>
      exact (parseMore_flag ((read_ahead f args arg).trans h) (hsetAll hg)).trans ih
  | case8 f arg name shown h => exact parseMore_lacking h
  | case9 f arg name shown h value rest g e hg => exact parseMore_unfit h (hset hg)
  | case10 f arg name shown h value rest g hg ih =>
      exact (parseMore_valued ((read_ahead f args arg).trans h) (hset hg)).trans ih

/-! ### Many pieces -/

/-- Pieces that can be read are read, and parsing goes on with the rest. -/
theorem Reads.parseMore_append (h : Reads f ps g) (rest : List String) :
    f.parseMore (ps.flatMap Piece.arguments ++ rest) = g.parseMore rest := by
  induction h with
  | nil => rfl
  | positional hread _ ih =>
      rw [List.flatMap_cons, List.append_assoc]
      exact (parseMore_positional hread).trans ih
  | flag hread hset _ ih =>
      rw [List.flatMap_cons, List.append_assoc]
      exact (parseMore_flag hread hset).trans ih
  | valued hread hset _ ih =>
      rw [List.flatMap_cons, List.append_assoc]
      exact (parseMore_valued hread hset).trans ih

theorem Reads.parseMore (h : Reads f ps g) : f.parseMore (ps.flatMap Piece.arguments) = (g, none) := by
  have happend := h.parseMore_append []
  rw [List.append_nil] at happend
  exact happend

theorem args_set (f : FlagSet) (name text : String) : (f.set name text).1.args = f.args := by
  rw [set]
  cases f.find? name with
  | none => rfl
  | some flag =>
      dsimp only
      cases flag.value.set text <;> rfl

/-- Setting a flag leaves the positional arguments alone. -/
theorem args_setAll (f : FlagSet) (name : String) (texts : List String) :
    (f.setAll name texts).1.args = f.args := by
  induction texts generalizing f with
  | nil => rfl
  | cons text texts ih =>
      have hargs := args_set f name text
      rw [setAll]
      rcases hset : f.set name text with ⟨g, _ | e⟩
      · rw [hset] at hargs
        exact (ih g).trans hargs
      · rw [hset] at hargs
        exact hargs

/-- The other arguments are those of the pieces, in their order. -/
theorem Reads.args_eq (h : Reads f ps g) : g.args = f.args ++ ps.flatMap Piece.positionals := by
  induction h with
  | nil => exact (List.append_nil _).symm
  | positional _ _ ih =>
      rw [ih, List.flatMap_cons, ← List.append_assoc]
      rfl
  | @flag f _ _ _ name texts _ _ hset _ ih =>
      have hargs := args_setAll f name texts
      rw [hset] at hargs
      rw [ih, hargs]
      rfl
  | @valued f _ _ _ value name _ _ _ hset _ ih =>
      have hargs := args_set f name value
      rw [hset] at hargs
      rw [ih, hargs]
      rfl

/-- Reading succeeds only piece by piece, up to a `--` or to the end. -/
theorem exists_reads (h : f.parseMore xs = (g, none)) :
    ∃ (d : Division) (g' : FlagSet), d.arguments = xs ∧ Reads f d.pieces g' ∧
      g = { g' with args := g'.args ++ d.behind.getD [] } := by
  fun_induction parseMore f xs with
  | case1 f =>
      obtain ⟨rfl, -⟩ := Prod.mk.inj h
      exact ⟨⟨[], none⟩, f, rfl, .nil, by simp⟩
  | case2 f arg rest hread ih =>
      obtain ⟨d, g', rfl, hreads, hg⟩ := ih h
      exact ⟨⟨.positional arg :: d.pieces, d.behind⟩, g', rfl, .positional hread hreads, hg⟩
  | case3 f arg rest hread =>
      obtain rfl := eq_of_read_terminator hread
      obtain ⟨rfl, -⟩ := Prod.mk.inj h
      exact ⟨⟨[], some rest⟩, f, rfl, .nil, rfl⟩
  | case4 | case5 | case6 | case8 | case9 => cases h
  | case7 f arg rest name texts f' hset hread ih =>
      obtain ⟨d, g', rfl, hreads, hg⟩ := ih h
      exact ⟨⟨.flag arg :: d.pieces, d.behind⟩, g', rfl, .flag hread hset hreads, hg⟩
  | case10 f arg name shown hread value rest f' hset ih =>
      obtain ⟨d, g', rfl, hreads, hg⟩ := ih h
      exact ⟨⟨.valued arg value :: d.pieces, d.behind⟩, g', rfl, .valued hread hset hreads, hg⟩

/-- Among some arguments there is a `--` in front of which everything has been read. -/
def MeetsEnd (f : FlagSet) (xs : List String) : Prop :=
  ∃ front rest, xs = front ++ "--" :: rest ∧ (f.parse front).2 = none

theorem meetsEnd_iff : f.MeetsEnd xs ↔ ∃ ps g rest,
    Reads { f with args := [] } ps g ∧ xs = ps.flatMap Piece.arguments ++ "--" :: rest := by
  constructor
  · rintro ⟨front, rest, rfl, hfront⟩
    obtain ⟨⟨ps, behind⟩, g, rfl, hreads, -⟩ := exists_reads (Prod.ext rfl hfront)
    cases behind with
    | none => exact ⟨ps, g, rest, hreads, by simp [Division.arguments]⟩
    | some inner => exact ⟨ps, g, inner ++ "--" :: rest, hreads, by simp [Division.arguments]⟩
  · rintro ⟨ps, g, rest, hreads, rfl⟩
    refine ⟨_, rest, rfl, ?_⟩
    rw [parse, hreads.parseMore]

/-- Behind the end of the flags every argument is taken as it is. -/
theorem MeetsEnd.parse_append (h : f.MeetsEnd xs) (ys : List String) :
    f.parse (xs ++ ys) = ({ (f.parse xs).1 with args := (f.parse xs).1.args ++ ys }, none) := by
  obtain ⟨ps, g, rest, hreads, rfl⟩ := meetsEnd_iff.mp h
  have hend : ∀ more, f.parse (ps.flatMap Piece.arguments ++ "--" :: more) =
      ({ g with args := g.args ++ more }, none) := by
    intro more
    rw [parse, hreads.parseMore_append, parseMore_terminator]
  rw [List.append_assoc, List.cons_append, hend, hend, List.append_assoc]

theorem Reads.parse_append (h : Reads { f with args := [] } ps g) (ys : List String) :
    f.parse (ps.flatMap Piece.arguments ++ ys) = ((g.parse ys).1.ahead g.args, (g.parse ys).2) := by
  have hg : ahead { g with args := [] } g.args = g := by simp [ahead]
  calc f.parse (ps.flatMap Piece.arguments ++ ys)
    _ = g.parseMore ys := h.parseMore_append ys
    _ = (ahead { g with args := [] } g.args).parseMore ys := by rw [hg]
    _ = ((g.parse ys).1.ahead g.args, (g.parse ys).2) := parseMore_ahead _ _ _

theorem read_unnamed (f : FlagSet) : f.read "--=" = .refused .emptyName := rfl

/-- Whether the end of the flags is met shows when a flag without a name follows. -/
theorem Reads.not_meetsEnd (h : Reads { f with args := [] } ps g) :
    ¬f.MeetsEnd (ps.flatMap Piece.arguments) := by
  intro hend
  have hfine : (f.parse (ps.flatMap Piece.arguments ++ ["--="])).2 = none := by rw [hend.parse_append]
  have hrefused : (f.parse (ps.flatMap Piece.arguments ++ ["--="])).2 = some .emptyName := by
    rw [h.parse_append, parse, parseMore_refused (read_unnamed _)]
  rw [hfine] at hrefused
  cases hrefused

/-- Reads a command line by a running index. There is no result when an argument or a slice is asked for that
does not exist, or the first two bytes of an argument that has fewer. -/
def parseAt? (f : FlagSet) (arguments : List String) (i : Nat) : Option (FlagSet × Option FlagError) :=
  if i < arguments.length then
    match arguments[i]? with
    | none => none
    | some arg =>
      if f.read arg ≠ .positional ∧ arg.utf8ByteSize < 2 then none
      else
        match f.read arg with
        | .positional => parseAt? { f with args := f.args ++ [arg] } arguments (i + 1)
        | .terminator =>
          if arguments.length < i + 1 then none
          else some ({ f with args := f.args ++ arguments.drop (i + 1) }, none)
        | .refused e => some (f, some e)
        | .sets name texts refusal =>
          match f.setAll name texts, refusal with
          | (f, some e), _ => some (f, some e)
          | (f, none), some e => some (f, some e)
          | (f, none), none => parseAt? f arguments (i + 1)
        | .wants name shown =>
          if arguments.length ≤ i + 1 then some (f, some (.needsArgument shown))
          else
            match arguments[i + 1]? with
            | none => none
            | some value =>
              match f.set name value with
              | (f, some e) => some (f, some e)
              | (f, none) => parseAt? f arguments (i + 2)
  else some (f, none)
termination_by arguments.length - i

/-- An argument that is looked into has at least two bytes. -/
theorem two_le_utf8ByteSize (h : f.read arg ≠ .positional) : 2 ≤ arg.utf8ByteSize := by
  have hsize : ∀ {c d : Char} {cs : List Char}, arg.toList = c :: d :: cs → 2 ≤ arg.utf8ByteSize := by
    intro c d cs hlist
    have harg : arg = String.singleton c ++ (String.singleton d ++ String.ofList cs) := by
      apply String.toList_inj.mp
      simp [hlist]
    have hc := c.utf8Size_pos
    have hd := d.utf8Size_pos
    rw [harg, String.utf8ByteSize_append, String.utf8ByteSize_append, String.utf8ByteSize_singleton,
      String.utf8ByteSize_singleton]
    omega
  rw [read.eq_def] at h
  split at h
  case h_1 hlist => exact hsize hlist
  case h_2 hlist => exact hsize hlist
  case h_3 hlist => exact hsize hlist
  case h_4 => exact absurd rfl h

/-- The index never leaves the arguments. -/
theorem parseAt?_eq (f : FlagSet) (arguments : List String) (i : Nat) :
    f.parseAt? arguments i = some (f.parseMore (arguments.drop i)) := by
  have hdrop : ∀ {i : Nat} {arg : String}, arguments[i]? = some arg →
      arguments.drop i = arg :: arguments.drop (i + 1) := by
    intro i arg harg
    obtain ⟨hi, rfl⟩ := List.getElem?_eq_some_iff.mp harg
    exact List.drop_eq_getElem_cons hi
  fun_induction parseAt? f arguments i with
  | case1 f i hi hnone => exact absurd (List.getElem?_eq_none_iff.mp hnone) (by omega)
  | case2 f i hi arg harg hsmall =>
      have := two_le_utf8ByteSize hsmall.1
      omega
  | case3 f i hi arg harg _ hread ih => rw [hdrop harg, parseMore_positional hread, ih]
  | case4 f i hi arg harg _ hread hslice => omega
  | case5 f i hi arg harg _ hread hslice =>
      obtain rfl := eq_of_read_terminator hread
      rw [hdrop harg, parseMore_terminator]
  | case6 f i hi arg harg _ e hread => rw [hdrop harg, parseMore_refused hread]
  | case7 f i hi arg harg _ name texts refusal hread g e hset => rw [hdrop harg, parseMore_unset hread hset]
  | case8 f i hi arg harg _ name texts g e hset hread => rw [hdrop harg, parseMore_overlong hread hset]
  | case9 f i hi arg harg _ name texts g hset hread ih => rw [hdrop harg, parseMore_flag hread hset, ih]
  | case10 f i hi arg harg _ name shown hread hlast =>
      rw [hdrop harg, List.drop_eq_nil_of_le hlast, parseMore_lacking hread]
  | case11 f i hi arg harg _ name shown hread hmore hnone =>
      exact absurd (List.getElem?_eq_none_iff.mp hnone) hmore
  | case12 f i hi arg harg _ name shown hread hmore value hvalue g e hset =>
      rw [hdrop harg, hdrop hvalue, parseMore_unfit hread hset]
  | case13 f i hi arg harg _ name shown hread hmore value hvalue g hset ih =>
      rw [hdrop harg, hdrop hvalue, parseMore_valued hread hset, ih]
  | case14 f i hi =>
      rw [List.drop_eq_nil_of_le (by omega)]
      rfl

/-- Command lines are read without losing or reordering anything. Reading by index never leaves the arguments.
If some arguments are read to their end, then they divide into pieces, each of them an argument that is no
flag or a flag with what it takes, and those that are no part of a flag come out in order, followed by what
stands behind a `--`. If there is no `--` among them, then further arguments are read as if they came in a
command line of their own; otherwise these are taken as they are. -/
theorem parse_continues (f : FlagSet) (xs : List String) :
    parseAt? { f with args := [] } xs 0 = some (f.parse xs) ∧
    ((f.parse xs).2 = none →
      (∃ (d : Division) (g : FlagSet), d.arguments = xs ∧ Reads { f with args := [] } d.pieces g ∧
        (f.parse xs).1 = { g with args := d.positionals } ∧ (d.behind = none ↔ ¬f.MeetsEnd xs)) ∧
      ∀ ys, (¬f.MeetsEnd xs →
          (f.parse (xs ++ ys)).2 = ((f.parse xs).1.parse ys).2 ∧
          (f.parse (xs ++ ys)).1 = { ((f.parse xs).1.parse ys).1 with
            args := (f.parse xs).1.args ++ ((f.parse xs).1.parse ys).1.args }) ∧
        (f.MeetsEnd xs →
          f.parse (xs ++ ys) = ({ (f.parse xs).1 with args := (f.parse xs).1.args ++ ys }, none))) := by
  refine ⟨parseAt?_eq _ xs 0, fun hfine => ?_⟩
  obtain ⟨⟨ps, behind⟩, g, rfl, hreads, hg⟩ := exists_reads (Prod.ext rfl hfine)
  have hargs : g.args = ps.flatMap Piece.positionals := hreads.args_eq
  cases behind with
  | none =>
      have hlist : Division.arguments ⟨ps, none⟩ = ps.flatMap Piece.arguments := List.append_nil _
      have hparse : f.parse (ps.flatMap Piece.arguments) = (g, none) := hreads.parseMore
      rw [hlist, hparse]
      refine ⟨⟨⟨ps, none⟩, g, hlist, hreads, ?_, iff_of_true rfl hreads.not_meetsEnd⟩, fun ys => ?_⟩
      · rw [Division.positionals, ← hargs, Option.getD_none, List.append_nil]
      · refine ⟨fun _ => ?_, fun hend => absurd hend hreads.not_meetsEnd⟩
        rw [hreads.parse_append]
        exact ⟨rfl, rfl⟩
  | some rest =>
      have hend : f.MeetsEnd (Division.arguments ⟨ps, some rest⟩) :=
        meetsEnd_iff.mpr ⟨ps, g, rest, hreads, rfl⟩
      have hbehind : ¬(some rest = none) := Option.some_ne_none rest
      refine ⟨⟨⟨ps, some rest⟩, g, rfl, hreads, ?_, iff_of_false hbehind (not_not_intro hend)⟩, fun ys => ?_⟩
      · rw [Division.positionals, ← hargs]
        exact hg
      · exact ⟨fun h => absurd hend h, fun _ => hend.parse_append ys⟩

/-- A `--` that a flag takes as its value, a second one that ends the flags, and flags behind it. -/
theorem parse_continues_dashes :
    let f : FlagSet :=
      { flags := [.ofText "output" "o" "" "" "", .ofSwitch "trace" "" false "", .ofCount "verbose" "v" ""] }
    let xs := ["-vv", "build", "-o", "--", "x.sw"]
    let ys := ["--trace", "y.sw", "--", "-v"]
    (f.parse xs).2 = none ∧ (f.parse xs).1.args = ["build", "x.sw"] ∧ ¬f.MeetsEnd xs ∧
      (f.parse (xs ++ ys)).1 = { ((f.parse xs).1.parse ys).1 with
        args := (f.parse xs).1.args ++ ((f.parse xs).1.parse ys).1.args } ∧
      (f.parse (xs ++ ys)).2 = none ∧ f.MeetsEnd (xs ++ ys) ∧
      f.parse (xs ++ ys ++ ["--nope"]) =
        ({ (f.parse (xs ++ ys)).1 with args := (f.parse (xs ++ ys)).1.args ++ ["--nope"] }, none) := by
  intro f xs ys
  have hxs : (f.parse xs).2 = none := by decide +kernel
  have hboth : (f.parse (xs ++ ys)).2 = none := by decide +kernel
  have hopen : ¬f.MeetsEnd xs := by
    intro hend
    have hrefused : (f.parse (xs ++ ["--="])).2 ≠ none := by decide +kernel
    exact hrefused (by rw [(((parse_continues f xs).2 hxs).2 ["--="]).2 hend])
  have hend : f.MeetsEnd (xs ++ ys) := ⟨xs ++ ["--trace", "y.sw"], ["-v"], rfl, by decide +kernel⟩
  refine ⟨hxs, by decide +kernel, hopen, ?_, hboth, hend, ?_⟩
  · exact ((((parse_continues f xs).2 hxs).2 ys).1 hopen).2
  · exact (((parse_continues f (xs ++ ys)).2 hboth).2 ["--nope"]).2 hend

end BlockLang.FlagSet

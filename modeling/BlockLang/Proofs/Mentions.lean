import BlockLang.Proofs.Arguments
import BlockLang.Settings.Flags
import Mathlib.Data.List.Nodup
import Mathlib.Data.List.TakeWhile

/-! The flags of the settings. A flag mentions a warning, a feature or all warnings, in the form that turns it on
or in the one that turns it off, and may carry a value that turns it around. Of each form the last mention
counts, and the form that turns off has the last word. Values are honoured by the flags of single warnings and
features; the flags about all warnings count as given whatever their value. -/

namespace BlockLang

namespace FlagSet

variable {f g : FlagSet} {flag : Flag} {flags : List Flag}

/-- A set has some flags in addition to those of another. -/
structure Gains (f : FlagSet) (flags : List Flag) (g : FlagSet) : Prop where
  new : ∀ flag ∈ flags, g.find? flag.name = some flag
  old : ∀ name flag, f.find? name = some flag → g.find? name = some flag

theorem Gains.append {more : List Flag} {h : FlagSet} (hg : Gains f flags g) (hh : Gains g more h) :
    Gains f (flags ++ more) h where
  new flag hflag := by
    obtain hfirst | hsecond := List.mem_append.mp hflag
    · exact hh.old _ _ (hg.new _ hfirst)
    · exact hh.new _ hsecond
  old name flag hfind := hh.old _ _ (hg.old _ _ hfind)

/-- Defining a flag adds it and leaves the others as they are. -/
theorem gains_define (h : f.define flag = .ok g) : Gains f [flag] g := by
  rw [define] at h
  split at h
  case isTrue => cases h
  case isFalse =>
    split at h
    case isTrue => cases h
    case isFalse hnew =>
      split at h
      case isTrue => cases h
      case isFalse =>
        cases h
        rw [Bool.not_eq_true, Option.isSome_eq_false_iff, Option.isNone_iff_eq_none, find?] at hnew
        refine ⟨List.forall_mem_singleton.mpr ?_, fun name x hx => ?_⟩
        · rw [find?, List.find?_append, hnew]
          simp
        · rw [find?] at hx
          rw [find?, List.find?_append, hx]
          rfl

theorem gains_foldlM {α : Type} {step : FlagSet → α → Except DefineError FlagSet} {adds : α → List Flag}
    {items : List α} (h : items.foldlM step f = .ok g)
    (hstep : ∀ f a g, step f a = .ok g → Gains f (adds a) g) : Gains f (items.flatMap adds) g := by
  induction items generalizing f with
  | nil =>
      cases h
      exact ⟨List.forall_mem_nil _, fun _ _ hx => hx⟩
  | cons item items ih =>
      rw [List.foldlM_cons] at h
      cases hitem : step f item with
      | error e =>
          rw [hitem] at h
          cases h
      | ok f' =>
          rw [hitem] at h
          exact (hstep _ _ _ hitem).append (ih h)

theorem gains_foldlM_define (h : flags.foldlM define f = .ok g) : Gains f flags g := by
  have hgains := gains_foldlM h fun _ _ _ => gains_define
  rw [List.flatMap_singleton'] at hgains
  exact hgains

theorem gains_defineGroup {group : FlagGroup} (h : f.defineGroup group = .ok g) :
    Gains f (group.entries.flatMap GroupEntry.flags) g := by
  rw [defineGroup] at h
  cases hflags : (group.entries.flatMap GroupEntry.flags).foldlM define f with
  | error e =>
      rw [hflags] at h
      cases h
  | ok f' =>
      rw [hflags] at h
      cases h
      have hgains := gains_foldlM_define hflags
      exact ⟨hgains.new, hgains.old⟩

end FlagSet

/-! ### Mentions -/

/-- What a flag of the settings speaks of. -/
inductive Topic where
  | warning (w : Warning)
  | allWarnings
  | feature (x : Feature)
  deriving DecidableEq

namespace Topic

/-- The letter in front of the flags of a topic. -/
def lead : Topic → String
  | warning _ | allWarnings => "W"
  | feature _ => "F"

def name : Topic → String
  | warning w => w.name
  | allWarnings => "all"
  | feature x => x.name

/-- The flag that turns a topic on, or the one that turns it off. -/
def flagName (t : Topic) (on : Bool) : String := if on then t.lead ++ t.name else t.lead ++ "no-" ++ t.name

def forms : List (Topic × Bool) :=
  (allWarnings :: (Warning.all.map warning ++ Feature.all.map feature)).flatMap fun t => [(t, true), (t, false)]

theorem mem_forms (t : Topic) (on : Bool) : (t, on) ∈ forms := by
  cases t with
  | warning w => cases w <;> cases on <;> decide
  | allWarnings => cases on <;> decide
  | feature x => cases x <;> cases on <;> decide

theorem nodup_flagNames : (forms.map fun p => p.1.flagName p.2).Nodup := by decide +kernel

theorem flagName_inj {t t' : Topic} {on on' : Bool} :
    t.flagName on = t'.flagName on' ↔ t = t' ∧ on = on' := by
  constructor
  · intro h
    exact Prod.mk.inj (List.inj_on_of_nodup_map nodup_flagNames (mem_forms t on) (mem_forms t' on') h)
  · rintro ⟨rfl, rfl⟩
    rfl

end Topic

/-- A word that a switch understands. -/
abbrev TruthWord := { s : String // (FlagValue.truth? s).isSome = true }

/-- A flag of the settings as it is written: its topic, its form, and the value behind an equals sign. -/
structure Mention where
  topic : Topic
  on : Bool := true
  value : Option TruthWord := none
  deriving DecidableEq

namespace Mention

def flagName (m : Mention) : String := m.topic.flagName m.on

def given (m : Mention) : String := (m.value.map (·.1)).getD ""

def text (m : Mention) : String := "-" ++ m.flagName ++ (m.value.map fun v => "=" ++ v.1).getD ""

/-- The position that the flag's own switch is put in. -/
def position (m : Mention) : Bool :=
  match m.value with
  | none => true
  | some v => (FlagValue.truth? v.1).get v.2

end Mention

/-- A switch that was put in a position, if it was. -/
def Flag.placed (flag : Flag) : Option Bool → Flag
  | none => flag
  | some b => { flag with given := true, value := .switch b }

theorem Flag.placed_placed (flag : Flag) (first second : Option Bool) :
    (flag.placed first).placed second = flag.placed (second.or first) := by
  cases second with
  | some b => cases first <;> rfl
  | none => rfl

theorem Flag.name_placed (flag : Flag) (position : Option Bool) : (flag.placed position).name = flag.name := by
  cases position <;> rfl

/-- What stands behind the dash of a flag: at least two letters, of which the first is no dash, and no equals
sign. -/
theorem Topic.flagName_spelling (t : Topic) (on : Bool) :
    ∃ c cs, (t.flagName on).toList = c :: cs ∧ c ≠ '-' ∧ '=' ∉ c :: cs ∧ 1 < (t.flagName on).utf8ByteSize := by
  have hall : (forms.all fun p => (p.1.flagName p.2).toList.head?.any (· != '-') &&
      (p.1.flagName p.2).toList.all (· != '=') && decide (1 < (p.1.flagName p.2).utf8ByteSize)) = true := by
    decide +kernel
  have hform := List.all_eq_true.mp hall _ (mem_forms t on)
  rw [Bool.and_eq_true, Bool.and_eq_true, decide_eq_true_eq] at hform
  obtain ⟨⟨hhead, hsign⟩, hsize⟩ := hform
  cases hlist : (t.flagName on).toList with
  | nil =>
      rw [hlist] at hhead
      cases hhead
  | cons c cs =>
      rw [hlist] at hhead hsign
      refine ⟨c, cs, rfl, bne_iff_ne.mp hhead, fun hmem => ?_, hsize⟩
      exact absurd rfl (bne_iff_ne.mp (List.all_eq_true.mp hsign _ hmem))

namespace FlagSet

section Reading

variable {f : FlagSet} {name : String} {value : Option String} {flag : Flag} {b : Bool}

theorem readLong_switch {body : List Char} (dashes : String) (hsplit : splitAssignment body = (name, value))
    (hne : name ≠ "") (hfind : f.find? name = some flag) (hswitch : flag.value = .switch b) :
    f.readLong dashes body = .sets name [value.getD ""] none := by
  rw [readLong, hsplit]
  dsimp only
  rw [if_neg hne, hfind]
  dsimp only
  cases value with
  | some v => rfl
  | none =>
      rw [hswitch]
      rfl

/-- One dash is enough for a flag whose name has several letters. -/
theorem read_switch {arg : String} {c : Char} {rest : List Char} (harg : arg.toList = '-' :: c :: rest)
    (hdash : c ≠ '-') (hsplit : splitAssignment (c :: rest) = (name, value)) (hsize : 1 < name.utf8ByteSize)
    (hfind : f.find? name = some flag) (hswitch : flag.value = .switch b) :
    f.read arg = .sets name [value.getD ""] none := by
  have hne : name ≠ "" := by
    rintro rfl
    exact absurd hsize (by decide)
  have hlong : 1 < name.utf8ByteSize ∧ (f.find? name).isSome = true := by
    rw [hfind]
    exact ⟨hsize, rfl⟩
  rw [read.eq_def, harg]
  split
  case h_1 heq => exact absurd (List.cons.inj (List.cons.inj heq).2).1 hdash
  case h_2 heq => exact absurd (List.cons.inj (List.cons.inj heq).2).1 hdash
  case h_3 heq =>
    cases heq
    rw [hsplit]
    dsimp only
    rw [if_pos hlong]
    exact readLong_switch "-" hsplit hne hfind hswitch
  case h_4 hnot => exact absurd rfl (hnot c rest)

/-- A mention is read as its flag, whatever other flags there are. -/
theorem read_mention {m : Mention} (hfind : f.find? m.flagName = some flag) (hswitch : flag.value = .switch b) :
    f.read m.text = .sets m.flagName [m.given] none := by
  obtain ⟨c, cs, hlist, hdash, hsign, hsize⟩ := m.topic.flagName_spelling m.on
  have hname : String.ofList (c :: cs) = m.flagName := by
    rw [← hlist]
    exact String.ofList_toList
  have htext : m.text.toList = '-' :: (m.flagName.toList ++ ((m.value.map fun v => "=" ++ v.1).getD "").toList) := by
    rw [Mention.text, String.toList_append, String.toList_append]
    rfl
  have hletters : m.flagName.toList = c :: cs := hlist
  rw [hletters] at htext
  cases hvalue : m.value with
  | none =>
      have hgiven : m.given = (none : Option String).getD "" := by rw [Mention.given, hvalue]; rfl
      have hsplit := splitAssignment_name hsign
      rw [hname] at hsplit
      rw [hvalue] at htext
      rw [hgiven]
      refine read_switch (htext.trans ?_) hdash hsplit hsize hfind hswitch
      exact congrArg ('-' :: ·) (List.append_nil _)
  | some v =>
      have hgiven : m.given = (some v.1).getD "" := by rw [Mention.given, hvalue]; rfl
      have hsplit := splitAssignment_value hsign v.1.toList
      rw [hname, String.ofList_toList] at hsplit
      rw [hvalue] at htext
      rw [hgiven]
      refine read_switch (htext.trans ?_) hdash hsplit hsize hfind hswitch
      rw [Option.map_some, Option.getD_some, String.toList_append]
      rfl

/-- Setting the flag of a mention puts its switch in the position that the mention asks for. -/
theorem set_mention {m : Mention} (hfind : f.find? m.flagName = some flag) (hswitch : flag.value = .switch b) :
    f.set m.flagName m.given =
      (f.update m.flagName (·.placed (some m.position)), none) := by
  have hset : flag.value.set m.given = .ok (.switch m.position) := by
    rw [hswitch, FlagValue.set, Mention.given, Mention.position]
    cases m.value with
    | none => rfl
    | some v =>
        have hne : v.1 ≠ "" := by
          intro h
          have := v.2
          rw [h] at this
          exact absurd this (by decide)
        rw [Option.map_some, Option.getD_some, if_neg hne]
        obtain ⟨on, hon⟩ := Option.isSome_iff_exists.mp v.2
        simp only [hon, Option.get_some]
  rw [set, hfind]
  dsimp only
  rw [hset]
  rfl

end Reading

end FlagSet

/-! ### Reading many mentions -/

namespace Mention

/-- The position of the flag of a topic in one of its forms, if it is the one that is mentioned. -/
def place? (m : Mention) (t : Topic) (on : Bool) : Option Bool :=
  if m.topic = t ∧ m.on = on then some m.position else none

/-- The position that the last mention leaves the flag of a topic in. -/
def last? : List Mention → Topic → Bool → Option Bool
  | [], _, _ => none
  | m :: ms, t, on => (last? ms t on).or (m.place? t on)

end Mention

namespace FlagSet

/-- A set has the flags of the settings, all of them switches. -/
def Serves (f : FlagSet) : Prop :=
  ∀ (t : Topic) (on : Bool), ∃ flag b, f.find? (t.flagName on) = some flag ∧ flag.value = .switch b

variable {f : FlagSet}

/-- A mention changes its own flag and no other one. -/
theorem Serves.find?_set (h : f.Serves) (m : Mention) (t : Topic) (on : Bool) :
    (f.set m.flagName m.given).1.find? (t.flagName on) =
      (f.find? (t.flagName on)).map (·.placed (m.place? t on)) := by
  obtain ⟨flag, b, hfind, hswitch⟩ := h m.topic m.on
  obtain ⟨other, -, hother, -⟩ := h t on
  have hname : other.name = t.flagName on := name_of_find? hother
  rw [set_mention hfind hswitch, find?_update fun flag => flag.name_placed _, hother, Option.map_some,
    Option.map_some, hname]
  by_cases hsame : m.topic = t ∧ m.on = on
  · have hflag : t.flagName on = m.flagName := Topic.flagName_inj.mpr ⟨hsame.1.symm, hsame.2.symm⟩
    rw [if_pos hflag, Mention.place?, if_pos hsame]
  · have hflag : t.flagName on ≠ m.flagName := by
      intro heq
      obtain ⟨ht, hon⟩ := Topic.flagName_inj.mp heq
      exact hsame ⟨ht.symm, hon.symm⟩
    rw [if_neg hflag, Mention.place?, if_neg hsame]
    rfl

theorem Serves.set (h : f.Serves) (m : Mention) : (f.set m.flagName m.given).1.Serves := by
  intro t on
  obtain ⟨flag, b, hfind, hswitch⟩ := h t on
  rw [h.find?_set, hfind]
  cases m.place? t on with
  | none => exact ⟨flag, b, rfl, hswitch⟩
  | some position => exact ⟨_, position, rfl, rfl⟩

/-- Each flag is left as its last mention says. -/
theorem Serves.parseMore (h : f.Serves) (ms : List Mention) :
    ∃ g, f.parseMore (ms.map Mention.text) = (g, none) ∧ g.args = f.args ∧
      ∀ t on, g.find? (t.flagName on) = (f.find? (t.flagName on)).map (·.placed (Mention.last? ms t on)) := by
  induction ms generalizing f with
  | nil => exact ⟨f, rfl, rfl, fun t on => Option.map_id'.symm⟩
  | cons m ms ih =>
      obtain ⟨flag, b, hfind, hswitch⟩ := h m.topic m.on
      obtain ⟨g, hparse, hargs, hflags⟩ := ih (h.set m)
      have hone : f.setAll m.flagName [m.given] = ((f.set m.flagName m.given).1, none) := by
        rw [setAll, set_mention hfind hswitch]
        rfl
      refine ⟨g, ?_, hargs.trans (args_set _ _ _), fun t on => ?_⟩
      · rw [List.map_cons, parseMore_flag (read_mention hfind hswitch) hone]
        exact hparse
      · rw [hflags, h.find?_set, Option.map_map, Mention.last?]
        congr 1
        funext flag
        exact flag.placed_placed _ _

/-- A set offers the flags of the settings if it has them and none was given. -/
def Offers (f : FlagSet) : Prop :=
  ∀ (t : Topic) (on : Bool), ∃ flag b, f.find? (t.flagName on) = some flag ∧ flag.value = .switch b ∧
    flag.given = false

theorem Offers.serves (h : f.Offers) : f.Serves := by
  intro t on
  obtain ⟨flag, b, hfind, hswitch, -⟩ := h t on
  exact ⟨flag, b, hfind, hswitch⟩

/-- What a command line of mentions leaves behind. -/
theorem Offers.parse (h : f.Offers) (ms : List Mention) :
    (f.parse (ms.map Mention.text)).2 = none ∧ (f.parse (ms.map Mention.text)).1.args = [] ∧
      ∀ t on, (f.parse (ms.map Mention.text)).1.isGiven (t.flagName on) = (Mention.last? ms t on).isSome ∧
        ∀ b, Mention.last? ms t on = some b → (f.parse (ms.map Mention.text)).1.isOn (t.flagName on) = b := by
  have hserves : Serves { f with args := [] } := h.serves
  obtain ⟨g, hparse, hargs, hflags⟩ := hserves.parseMore ms
  rw [FlagSet.parse, hparse]
  refine ⟨rfl, hargs, fun t on => ?_⟩
  obtain ⟨flag, b, hfind, hswitch, hgiven⟩ := h t on
  have hflag : g.find? (t.flagName on) = some (flag.placed (Mention.last? ms t on)) := by
    rw [hflags]
    exact congrArg (Option.map _) hfind
  rw [isGiven, isOn, hflag]
  cases Mention.last? ms t on with
  | none => exact ⟨hgiven, fun _ hb => by cases hb⟩
  | some position => exact ⟨rfl, fun _ hb => Option.some.inj hb⟩

end FlagSet

def Settings.ownFlags (s : Settings) : List Flag :=
  allFlags ++ s.groups.flatMap fun group => group.entries.flatMap GroupEntry.flags

theorem Settings.gains_defineFlags {s : Settings} {f g : FlagSet} (h : s.defineFlags f = .ok g) :
    f.Gains s.ownFlags g := by
  rw [defineFlags] at h
  cases hall : allFlags.foldlM FlagSet.define f with
  | error e =>
      rw [hall] at h
      cases h
  | ok f' =>
      rw [hall] at h
      have hgroups : s.groups.foldlM FlagSet.defineGroup f' = .ok g := h
      exact (FlagSet.gains_foldlM_define hall).append
        (FlagSet.gains_foldlM hgroups fun _ _ _ => FlagSet.gains_defineGroup)

theorem Settings.mem_ownFlags_warning (s : Settings) (w : Warning) {flag : Flag} (h : flag ∈ (w.entry s).flags) :
    flag ∈ s.ownFlags := by
  have hw : w ∈ Warning.all := by cases w <;> decide
  refine List.mem_append_right _ (List.mem_flatMap.mpr ⟨_, List.mem_cons_self, ?_⟩)
  exact List.mem_flatMap.mpr ⟨w.entry s, List.mem_map_of_mem hw, h⟩

theorem Settings.mem_ownFlags_feature (s : Settings) (x : Feature) {flag : Flag} (h : flag ∈ (x.entry s).flags) :
    flag ∈ s.ownFlags := by
  have hx : x ∈ Feature.all := by cases x <;> decide
  refine List.mem_append_right _ (List.mem_flatMap.mpr ⟨_, List.mem_cons_of_mem _ List.mem_cons_self, ?_⟩)
  exact List.mem_flatMap.mpr ⟨x.entry s, List.mem_map_of_mem hx, h⟩

/-- Every topic has a flag in both forms, which is a switch that is not given at first. -/
theorem Settings.exists_ownFlag (s : Settings) (t : Topic) (on : Bool) :
    ∃ flag ∈ s.ownFlags, flag.name = t.flagName on ∧ (∃ b, flag.value = .switch b) ∧ flag.given = false := by
  cases t with
  | allWarnings =>
      cases on with
      | true => exact ⟨_, List.mem_append_left _ List.mem_cons_self, rfl, ⟨false, rfl⟩, rfl⟩
      | false =>
          exact ⟨_, List.mem_append_left _ (List.mem_cons_of_mem _ List.mem_cons_self), rfl, ⟨false, rfl⟩, rfl⟩
  | warning w =>
      cases on with
      | true => exact ⟨_, s.mem_ownFlags_warning w List.mem_cons_self, rfl, ⟨s.warning w, rfl⟩, rfl⟩
      | false =>
          exact ⟨_, s.mem_ownFlags_warning w (List.mem_cons_of_mem _ List.mem_cons_self), rfl, ⟨false, rfl⟩, rfl⟩
  | feature x =>
      cases on with
      | true => exact ⟨_, s.mem_ownFlags_feature x List.mem_cons_self, rfl, ⟨s.feature x, rfl⟩, rfl⟩
      | false =>
          exact ⟨_, s.mem_ownFlags_feature x (List.mem_cons_of_mem _ List.mem_cons_self), rfl, ⟨false, rfl⟩, rfl⟩

/-- Flags that are defined later do not hide those of the settings. -/
theorem Settings.offers_defineFlags {s : Settings} {f₀ f₁ f : FlagSet} {more : List Flag}
    (hdefine : s.defineFlags f₀ = .ok f₁) (hmore : more.foldlM FlagSet.define f₁ = .ok f) : f.Offers := by
  intro t on
  obtain ⟨flag, hmem, hname, ⟨b, hswitch⟩, hgiven⟩ := s.exists_ownFlag t on
  have hfind := (gains_defineFlags hdefine).new flag hmem
  rw [hname] at hfind
  exact ⟨flag, b, (FlagSet.gains_foldlM_define hmore).old _ _ hfind, hswitch, hgiven⟩

namespace Mention

/-- What the mentions of a topic turn it to. The form that turns off has the last word. -/
def turned? (ms : List Mention) (t : Topic) : Option Bool := ((last? ms t false).map not).or (last? ms t true)

/-- What the mentions of all warnings turn these to. -/
def all? (ms : List Mention) : Option Bool :=
  ((last? ms .allWarnings false).map fun _ => false).or ((last? ms .allWarnings true).map fun _ => true)

end Mention

namespace Settings

def obeying (s : Settings) (ms : List Mention) : Settings :=
  { s with
    warning := fun w => (Mention.turned? ms (.warning w)).getD
      (if w = .pedantic then s.warning w else (Mention.all? ms).getD (s.warning w))
    feature := fun x => (Mention.turned? ms (.feature x)).getD (s.feature x) }

variable {f : FlagSet}

/-- What the flags of an entry say in the end is what the last mention of the topic has turned it to. -/
theorem entrySays_parse (h : f.Offers) (ms : List Mention) {e : GroupEntry} {t : Topic}
    (hon : e.onFlag = t.flagName true) (hoff : e.offFlag = t.flagName false) (before : Bool) :
    entrySays (f.parse (ms.map Mention.text)).1 e before = (Mention.turned? ms t).getD before := by
  obtain ⟨-, -, hflags⟩ := h.parse ms
  obtain ⟨honGiven, honPlace⟩ := hflags t true
  obtain ⟨hoffGiven, hoffPlace⟩ := hflags t false
  rw [entrySays, hon, hoff, honGiven, hoffGiven, Mention.turned?]
  cases hlastOff : Mention.last? ms t false with
  | some b =>
      rw [hoffPlace b hlastOff]
      rfl
  | none =>
      cases hlastOn : Mention.last? ms t true with
      | some b =>
          rw [honPlace b hlastOn]
          rfl
      | none => rfl

/-- Parsing mentions and obeying the flags is obeying the mentions. The flags about all warnings come first, and
the one that turns off is obeyed after the other. -/
theorem applyFlagSet_parse (h : f.Offers) (s : Settings) (ms : List Mention) :
    s.applyFlagSet (f.parse (ms.map Mention.text)).1 = s.obeying ms := by
  obtain ⟨-, -, hflags⟩ := h.parse ms
  have hall : (f.parse (ms.map Mention.text)).1.isGiven "Wall" = (Mention.last? ms .allWarnings true).isSome :=
    (hflags .allWarnings true).1
  have hnone : (f.parse (ms.map Mention.text)).1.isGiven "Wno-all" =
      (Mention.last? ms .allWarnings false).isSome := (hflags .allWarnings false).1
  have hbase : (if (Mention.last? ms .allWarnings false).isSome = true then
        (if (Mention.last? ms .allWarnings true).isSome = true then s.setAllWarnings true else s).setAllWarnings false
      else if (Mention.last? ms .allWarnings true).isSome = true then s.setAllWarnings true else s) =
        { s with
          warning := fun w => if w = .pedantic then s.warning w else (Mention.all? ms).getD (s.warning w) } := by
    rw [Mention.all?]
    cases Mention.last? ms .allWarnings false with
    | some b =>
        cases Mention.last? ms .allWarnings true with
        | some b' => simp +contextual [setAllWarnings]
        | none => simp [setAllWarnings]
    | none =>
        cases Mention.last? ms .allWarnings true with
        | some b' => simp [setAllWarnings]
        | none => simp
  simp only [applyFlagSet, hall, hnone, hbase, entrySays_parse h ms (e := Warning.entry _ _) (t := .warning _) rfl rfl,
    entrySays_parse h ms (e := Feature.entry _ _) (t := .feature _) rfl rfl]
  rfl

end Settings

namespace Mention

/-- The same request without a value: a flag whose value says no is replaced by its opposite. -/
def honoured (m : Mention) : Mention :=
  if m.position = true then { m with value := none } else { m with on := !m.on, value := none }

/-- What becomes of a flag: those about all warnings only lose their value. -/
def obeyed (m : Mention) : Mention := if m.topic = .allWarnings then { m with value := none } else m.honoured

variable {ms : List Mention} {m : Mention} {t : Topic} {change : Mention → Mention}

theorem last?_eq_none (h : ∀ m ∈ ms, m.topic ≠ t) (on : Bool) : last? ms t on = none := by
  induction ms with
  | nil => rfl
  | cons m ms ih =>
      obtain ⟨hm, hms⟩ := List.forall_mem_cons.mp h
      rw [last?, ih hms, place?, if_neg (fun hsame => hm hsame.1)]
      rfl

/-- Where no topic is mentioned twice, its one mention counts. -/
theorem last?_of_mem (hdistinct : (ms.map topic).Nodup) (hm : m ∈ ms) (on : Bool) :
    last? ms m.topic on = m.place? m.topic on := by
  induction ms with
  | nil => cases hm
  | cons first ms ih =>
      rw [List.map_cons, List.nodup_cons] at hdistinct
      obtain ⟨hfirst, hrest⟩ := hdistinct
      have hother : ∀ m' ∈ ms, m'.topic ≠ first.topic := by
        intro m' hm' heq
        exact hfirst (heq ▸ List.mem_map_of_mem hm')
      obtain rfl | hlater := List.mem_cons.mp hm
      · rw [last?, last?_eq_none hother, Option.none_or]
      · have hplace : first.place? m.topic on = none := if_neg fun hsame => hother m hlater hsame.1.symm
        rw [last?, ih hrest hlater, hplace, Option.or_none]

theorem turned?_of_mem (hdistinct : (ms.map topic).Nodup) (hm : m ∈ ms) :
    turned? ms m.topic = some (m.on == m.position) := by
  rw [turned?, last?_of_mem hdistinct hm, last?_of_mem hdistinct hm, place?, place?]
  cases m.on <;> cases m.position <;> simp

theorem all?_of_mem (hdistinct : (ms.map topic).Nodup) (hm : m ∈ ms) (htopic : m.topic = .allWarnings) :
    all? ms = some m.on := by
  rw [all?, ← htopic, last?_of_mem hdistinct hm, last?_of_mem hdistinct hm, place?, place?]
  cases m.on <;> simp

section Changes

variable (hdistinct : (ms.map topic).Nodup) (htopic : ∀ m, (change m).topic = m.topic)

include htopic in
theorem map_topic : (ms.map change).map topic = ms.map topic := by
  rw [List.map_map]
  exact List.map_congr_left fun m _ => htopic m

include htopic in
/-- What is said of a topic depends on its mention alone. -/
theorem mentioned_or_not (ms : List Mention) (t : Topic) :
    (∃ m ∈ ms, m.topic = t) ∨ ((∀ m ∈ ms, m.topic ≠ t) ∧ ∀ m ∈ ms.map change, m.topic ≠ t) := by
  by_cases h : ∃ m ∈ ms, m.topic = t
  · exact .inl h
  · have hnot : ∀ m ∈ ms, m.topic ≠ t := fun m hm heq => h ⟨m, hm, heq⟩
    refine .inr ⟨hnot, List.forall_mem_map.mpr fun m hm => ?_⟩
    rw [htopic]
    exact hnot m hm

include hdistinct htopic in
theorem turned?_map (h : ∀ m ∈ ms, m.topic = t →
    ((change m).on == (change m).position) = (m.on == m.position)) :
    turned? (ms.map change) t = turned? ms t := by
  obtain ⟨m, hm, rfl⟩ | ⟨hnot, hnot'⟩ := mentioned_or_not htopic ms t
  · have hdistinct' : ((ms.map change).map topic).Nodup := by rwa [map_topic htopic]
    have hchanged := turned?_of_mem hdistinct' (List.mem_map_of_mem hm)
    rw [htopic] at hchanged
    rw [hchanged, turned?_of_mem hdistinct hm, h m hm rfl]
  · rw [turned?, turned?, last?_eq_none hnot, last?_eq_none hnot, last?_eq_none hnot', last?_eq_none hnot']

include hdistinct htopic in
theorem all?_map (h : ∀ m ∈ ms, m.topic = .allWarnings → (change m).on = m.on) :
    all? (ms.map change) = all? ms := by
  obtain ⟨m, hm, hall⟩ | ⟨hnot, hnot'⟩ := mentioned_or_not htopic ms .allWarnings
  · have hdistinct' : ((ms.map change).map topic).Nodup := by rwa [map_topic htopic]
    have hchanged : (change m).topic = .allWarnings := (htopic m).trans hall
    rw [all?_of_mem hdistinct hm hall, all?_of_mem hdistinct' (List.mem_map_of_mem hm) hchanged, h m hm hall]
  · rw [all?, all?, last?_eq_none hnot, last?_eq_none hnot, last?_eq_none hnot', last?_eq_none hnot']

include hdistinct htopic in
theorem obeying_map (s : Settings)
    (hone : ∀ m ∈ ms, m.topic ≠ .allWarnings → ((change m).on == (change m).position) = (m.on == m.position))
    (hall : ∀ m ∈ ms, m.topic = .allWarnings → (change m).on = m.on) :
    s.obeying (ms.map change) = s.obeying ms := by
  have hturned : ∀ t, t ≠ .allWarnings → turned? (ms.map change) t = turned? ms t := by
    intro t ht
    exact turned?_map hdistinct htopic fun m hm htopic => hone m hm (htopic ▸ ht)
  have hwarning : ∀ w, turned? (ms.map change) (.warning w) = turned? ms (.warning w) :=
    fun w => hturned _ (by simp)
  have hfeature : ∀ x, turned? (ms.map change) (.feature x) = turned? ms (.feature x) :=
    fun x => hturned _ (by simp)
  simp only [Settings.obeying, all?_map hdistinct htopic hall, hwarning, hfeature]

end Changes

theorem honoured_topic (m : Mention) : m.honoured.topic = m.topic := by
  rw [honoured]
  split <;> rfl

theorem obeyed_topic (m : Mention) : m.obeyed.topic = m.topic := by
  rw [obeyed]
  split
  · rfl
  · exact m.honoured_topic

theorem honoured_asks (m : Mention) : (m.honoured.on == m.honoured.position) = (m.on == m.position) := by
  rw [honoured]
  split
  case isTrue h =>
    rw [h]
    rfl
  case isFalse h =>
    rw [Bool.eq_false_iff.mpr h]
    cases m.on <;> rfl

end Mention

namespace Settings

/-- The values of flags are honoured. Where no warning, no feature and not all warnings together are mentioned
twice, a command line asks for the same settings as the one without values in which each flag that is given
the value false is replaced by its opposite, as long as no flag about all warnings is given that value. Such a
flag counts as given whatever its value, and is obeyed as if it had none. -/
theorem flag_values_honoured {s₀ : Settings} {f₀ f₁ f : FlagSet} {more : List Flag}
    (hdefine : s₀.defineFlags f₀ = .ok f₁) (hmore : more.foldlM FlagSet.define f₁ = .ok f)
    (s : Settings) {ms : List Mention} (hdistinct : (ms.map Mention.topic).Nodup) :
    (f.parse (ms.map Mention.text)).2 = none ∧
    ((∀ m ∈ ms, m.topic = .allWarnings → m.position = true) →
      s.applyFlagSet (f.parse (ms.map Mention.text)).1 =
        s.applyFlagSet (f.parse ((ms.map Mention.honoured).map Mention.text)).1) ∧
    s.applyFlagSet (f.parse (ms.map Mention.text)).1 =
      s.applyFlagSet (f.parse ((ms.map Mention.obeyed).map Mention.text)).1 := by
  have hoffers := offers_defineFlags hdefine hmore
  refine ⟨(hoffers.parse ms).1, fun hall => ?_, ?_⟩
  · rw [applyFlagSet_parse hoffers, applyFlagSet_parse hoffers]
    refine (Mention.obeying_map hdistinct Mention.honoured_topic s (fun m _ _ => m.honoured_asks) ?_).symm
    intro m hm htopic
    rw [Mention.honoured, if_pos (hall m hm htopic)]
  · rw [applyFlagSet_parse hoffers, applyFlagSet_parse hoffers]
    refine (Mention.obeying_map hdistinct Mention.obeyed_topic s ?_ ?_).symm
    · intro m _ htopic
      rw [Mention.obeyed, if_neg htopic]
      exact m.honoured_asks
    · intro m _ htopic
      rw [Mention.obeyed, if_pos htopic]

theorem exists_defineFlags : ∃ f, ({} : Settings).defineFlags {} = .ok f := by
  have hok : (({} : Settings).defineFlags {}).isOk = true := by decide +kernel
  cases h : ({} : Settings).defineFlags {} with
  | ok f => exact ⟨f, rfl⟩
  | error e =>
      rw [h] at hok
      cases hok

/-- Values of both kinds on flags of both forms, together with a flag about all warnings. -/
theorem flag_values_honoured_mixed :
    let ms : List Mention := [⟨.warning .shadow, true, some ⟨"false", rfl⟩⟩,
      ⟨.feature .remainder, false, some ⟨"F", rfl⟩⟩, ⟨.allWarnings, false, some ⟨"1", rfl⟩⟩]
    ms.map Mention.text = ["-Wshadow=false", "-Fno-remainder=F", "-Wno-all=1"] ∧
      (ms.map Mention.topic).Nodup ∧ (∀ m ∈ ms, m.topic = .allWarnings → m.position = true) ∧
      ∃ f, ({} : Settings).defineFlags {} = .ok f ∧
        ({} : Settings).applyFlagSet (f.parse ["-Wshadow=false", "-Fno-remainder=F", "-Wno-all=1"]).1 =
          ({} : Settings).applyFlagSet (f.parse ["-Wno-shadow", "-Fremainder", "-Wno-all"]).1 := by
  intro ms
  obtain ⟨f, hf⟩ := exists_defineFlags
  have hmore : [].foldlM FlagSet.define f = .ok f := rfl
  have hdistinct : (ms.map Mention.topic).Nodup := by decide
  have hall : ∀ m ∈ ms, m.topic = .allWarnings → m.position = true := by decide
  have htext : ms.map Mention.text = ["-Wshadow=false", "-Fno-remainder=F", "-Wno-all=1"] := by decide +kernel
  have hplain : (ms.map Mention.honoured).map Mention.text = ["-Wno-shadow", "-Fremainder", "-Wno-all"] := by
    decide +kernel
  obtain ⟨-, hhonoured, -⟩ := flag_values_honoured hf hmore {} hdistinct
  refine ⟨htext, hdistinct, hall, f, hf, ?_⟩
  rw [← htext, ← hplain]
  exact hhonoured hall

/-- The argument `-Wall=false` turns all warnings on, and not off. -/
theorem all_flag_ignores_value : ∃ f, ({} : Settings).defineFlags {} = .ok f ∧
    ∃ ms : List Mention, ms.map Mention.text = ["-Wall=false"] ∧ (ms.map Mention.topic).Nodup ∧
      (ms.map Mention.honoured).map Mention.text = ["-Wno-all"] ∧
      (({} : Settings).applyFlagSet (f.parse ["-Wall=false"]).1).warning .constCond = true ∧
      (({} : Settings).applyFlagSet (f.parse ["-Wno-all"]).1).warning .constCond = false := by
  obtain ⟨f, hf⟩ := exists_defineFlags
  have hmore : [].foldlM FlagSet.define f = .ok f := rfl
  let m : Mention := ⟨.allWarnings, true, some ⟨"false", rfl⟩⟩
  have htext : [m].map Mention.text = ["-Wall=false"] := by decide +kernel
  have hplain : ([m].map Mention.honoured).map Mention.text = ["-Wno-all"] := by decide +kernel
  refine ⟨f, hf, [m], htext, by decide, hplain, ?_, ?_⟩
  · rw [← htext, applyFlagSet_parse (offers_defineFlags hf hmore)]
    rfl
  · rw [← hplain, applyFlagSet_parse (offers_defineFlags hf hmore)]
    rfl

end Settings

end BlockLang

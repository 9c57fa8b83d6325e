import BlockLang.Proofs.Arguments
import Mathlib.Data.List.Nodup

/-! What the text of a command line is used for. Every argument is divided into stretches, and each stretch has
a use: it is an argument that is no flag, the name of a flag with its value, a value of its own, or a letter
that sets or counts a flag. There is one exception: text behind the letter of a switch is passed over, while
such text behind the letter of a counter is refused. -/

namespace BlockLang.FlagSet

/-- What a stretch of an argument is there for. -/
inductive Stretch where
  /-- A whole argument that is no flag. -/
  | positional (text : String)
  | dashes (text : String)
  /-- The name of a flag, and the value behind an equals sign if there is one. -/
  | flag (name : String) (value : Option String)
  /-- A letter that stands for a flag. -/
  | letter (c : Char)
  /-- A value, in an argument of its own or behind a letter. -/
  | value (text : String)
  /-- Text that nothing is done with. -/
  | idle (text : String)
  deriving DecidableEq

/-- A name and the value behind an equals sign. -/
def assignment (name : String) : Option String → List Char
  | none => name.toList
  | some value => name.toList ++ '=' :: value.toList

def Stretch.chars : Stretch → List Char
  | positional text | dashes text | value text | idle text => text.toList
  | flag name given => assignment name given
  | letter c => [c]

/-- The argument that some stretches make up. -/
def spelled (stretches : List Stretch) : String := String.ofList (stretches.flatMap Stretch.chars)

/-- Some text begins with the name of a flag, one that is longer than a byte. Behind a single dash such text is
a name, and any other text begins with a letter. -/
def NamesFlag (f : FlagSet) (cs : List Char) : Prop :=
  1 < (splitAssignment cs).1.utf8ByteSize ∧ (f.find? (splitAssignment cs).1).isSome

/-- A name may stand behind some dashes. -/
def MayName (dashes name : String) : Prop :=
  name ≠ "" ∧ '=' ∉ name.toList ∧
    (dashes = "--" ∨ dashes = "-" ∧ 1 < name.utf8ByteSize ∧ name.toList.head? ≠ some '-')

/-- A dash, a letter and some text are read as the letter of a flag. -/
def Stands (f : FlagSet) (c : Char) (rest : List Char) (flag : Flag) : Prop :=
  c ≠ '-' ∧ ¬f.NamesFlag (c :: rest) ∧ f.findShorthand? c = some flag

/-- What the stretches of one or two arguments do to the flags. -/
inductive Uses (f : FlagSet) : List (List Stretch) → FlagSet → Prop where
  | positional {arg : String} : (∀ c cs, arg.toList ≠ '-' :: c :: cs) →
      Uses f [[.positional arg]] { f with args := f.args ++ [arg] }
  | named {dashes name : String} {value : Option String} {flag : Flag} {g : FlagSet} : MayName dashes name →
      f.find? name = some flag → (value = none → flag.value.takesArgument = false) →
      f.set name (value.getD "") = (g, none) → Uses f [[.dashes dashes, .flag name value]] g
  /-- The value of a named flag is the next argument. -/
  | namedNext {dashes name text : String} {flag : Flag} {g : FlagSet} : MayName dashes name →
      f.find? name = some flag → flag.value.takesArgument = true → f.set name text = (g, none) →
      Uses f [[.dashes dashes, .flag name none], [.value text]] g
  /-- Each letter counts. -/
  | counted {c : Char} {n : Nat} {flag : Flag} {k : Int64} {g : FlagSet} :
      f.Stands c (List.replicate n c) flag → flag.value = .count k →
      f.setAll flag.name (List.replicate (n + 1) "") = (g, none) →
      Uses f [.dashes "-" :: List.replicate (n + 1) (.letter c)] g
  | switched {c : Char} {flag : Flag} {on : Bool} {g : FlagSet} : f.Stands c [] flag → flag.value = .switch on →
      f.set flag.name "" = (g, none) → Uses f [[.dashes "-", .letter c]] g
  /-- The value stands directly behind the letter. -/
  | attached {c : Char} {text : String} {flag : Flag} {g : FlagSet} : f.Stands c text.toList flag → text ≠ "" →
      flag.value.takesArgument = true → f.set flag.name text = (g, none) →
      Uses f [[.dashes "-", .letter c, .value text]] g
  /-- The value of a letter's flag is the next argument. -/
  | letterNext {c : Char} {text : String} {flag : Flag} {g : FlagSet} : f.Stands c [] flag →
      flag.value.takesArgument = true → f.set flag.name text = (g, none) →
      Uses f [[.dashes "-", .letter c], [.value text]] g
  /-- What stands behind the letter of a switch is passed over. -/
  | passedOver {c : Char} {text : String} {flag : Flag} {on : Bool} {g : FlagSet} :
      f.Stands c text.toList flag → text ≠ "" → flag.value = .switch on → f.set flag.name "" = (g, none) →
      Uses f [[.dashes "-", .letter c, .idle text]] g

/-- What the stretches of a command line do to the flags, from left to right. -/
inductive Spends : FlagSet → List (List Stretch) → FlagSet → Prop where
  | nil {f : FlagSet} : Spends f [] f
  | cons {f f' g : FlagSet} {args more : List (List Stretch)} : Uses f args f' → Spends f' more g →
      Spends f (args ++ more) g

/-- A dash, the letter of a switch, and more text, which does not make up the name of a flag. -/
def Overlong (f : FlagSet) (arg : String) : Prop :=
  ∃ c rest flag on, arg.toList = '-' :: c :: rest ∧ rest ≠ [] ∧ f.Stands c rest flag ∧ flag.value = .switch on

variable {f g : FlagSet} {name arg shown : String} {value : Option String} {flag : Flag} {texts : List String}
  {body rest : List Char} {c : Char}

theorem splitAssignment_assignment (h : '=' ∉ name.toList) (value : Option String) :
    splitAssignment (assignment name value) = (name, value) := by
  cases value with
  | none => simp only [assignment, splitAssignment_name h, String.ofList_toList]
  | some v => simp only [assignment, splitAssignment_value h, String.ofList_toList]

/-- A split at the equals sign gives back the assignment, and the name has no equals sign. -/
theorem eq_assignment (h : splitAssignment body = (name, value)) :
    '=' ∉ name.toList ∧ body = assignment name value := by
  rw [splitAssignment, Prod.mk.injEq] at h
  obtain ⟨rfl, hvalue⟩ := h
  constructor
  · intro hmem
    rw [String.toList_ofList] at hmem
    simpa using List.mem_takeWhile_imp hmem
  · have hsplit := List.takeWhile_append_dropWhile (p := (· ≠ '=')) (l := body)
    cases hdrop : body.dropWhile (· ≠ '=') with
    | nil =>
        rw [hdrop] at hvalue hsplit
        subst hvalue
        simpa [assignment] using hsplit.symm
    | cons d rest =>
        have hd : d = '=' := by
          have hhead := List.head?_dropWhile_not (· ≠ '=') body
          rw [hdrop] at hhead
          simpa using hhead
        rw [hdrop] at hvalue hsplit
        subst hvalue hd
        simpa [assignment] using hsplit.symm

theorem head?_assignment (hname : name ≠ "") (value : Option String) :
    (assignment name value).head? = name.toList.head? := by
  have hlist : name.toList ≠ [] := by simpa using hname
  cases value with
  | none => rfl
  | some v => rw [assignment, List.head?_append_of_ne_nil _ hlist]

theorem readLong_assignment (dashes : String) (hname : name ≠ "") (hsign : '=' ∉ name.toList)
    (hfind : f.find? name = some flag) (value : Option String) :
    f.readLong dashes (assignment name value) = if value = none ∧ flag.value.takesArgument = true
      then .wants name (dashes ++ name) else .sets name [value.getD ""] none := by
  rw [readLong, splitAssignment_assignment hsign]
  cases value <;> simp [hname, hfind]

/-- A name that is not refused is that of a flag. -/
theorem exists_assignment {dashes : String} (h : ∀ e, f.readLong dashes body ≠ .refused e) :
    ∃ name value flag, name ≠ "" ∧ '=' ∉ name.toList ∧ body = assignment name value ∧
      f.find? name = some flag := by
  rcases hsplit : splitAssignment body with ⟨name, value⟩
  obtain ⟨hsign, hbody⟩ := eq_assignment hsplit
  rw [readLong, hsplit] at h
  by_cases hname : name = ""
  · simp [hname] at h
  · cases hfind : f.find? name with
    | none => simp [hname, hfind] at h
    | some flag => exact ⟨name, value, flag, hname, hsign, hbody, hfind⟩

theorem readShort_switch {on : Bool} (hletter : f.findShorthand? c = some flag) (hvalue : flag.value = .switch on)
    (rest : List Char) : f.readShort c rest = .sets flag.name [""] none := by
  simp only [readShort, hletter, hvalue]

theorem readShort_valued (hletter : f.findShorthand? c = some flag) (hvalue : flag.value.takesArgument = true)
    (rest : List Char) : f.readShort c rest = if rest = [] then .wants flag.name ("-" ++ String.singleton c)
      else .sets flag.name [String.ofList rest] none := by
  rw [readShort, hletter]
  cases hkind : flag.value <;> simp_all [FlagValue.takesArgument]

theorem readShort_count {k : Int64} (hletter : f.findShorthand? c = some flag) (hvalue : flag.value = .count k)
    (n : Nat) : f.readShort c (List.replicate n c) = .sets flag.name (List.replicate (n + 1) "") none := by
  simp only [readShort, hletter, hvalue]
  have htake : (List.replicate n c).takeWhile (· = c) = List.replicate n c := by simp
  have hdrop : (List.replicate n c).dropWhile (· = c) = [] := by simp
  simp [htake, hdrop, List.replicate_succ]

/-- A counter's letter is followed by nothing else. -/
theorem eq_replicate_of_count {k : Int64} (hletter : f.findShorthand? c = some flag) (hvalue : flag.value = .count k)
    (h : f.readShort c rest = .sets name texts none) : rest = List.replicate rest.length c := by
  simp only [readShort, hletter, hvalue, Reading.sets.injEq] at h
  obtain ⟨-, -, hrefusal⟩ := h
  have hdrop : rest.dropWhile (· = c) = [] := by simpa using hrefusal
  rw [List.eq_replicate_iff]
  exact ⟨rfl, by simpa using List.dropWhile_eq_nil_iff.mp hdrop⟩

/-! ### How an argument is read -/

theorem read_plain (h : ∀ c cs, arg.toList ≠ '-' :: c :: cs) : f.read arg = .positional := by
  rw [read.eq_def]
  split
  · exact absurd ‹_› (h _ _)
  · exact absurd ‹_› (h _ _)
  · exact absurd ‹_› (h _ _)
  · rfl

theorem read_doubleDash (harg : arg.toList = '-' :: '-' :: body) (h : body ≠ []) :
    f.read arg = f.readLong "--" body := by
  rw [read.eq_def, harg]
  cases body with
  | nil => exact absurd rfl h
  | cons c cs => rfl

theorem read_dash (harg : arg.toList = '-' :: c :: rest) (hc : c ≠ '-') :
    f.read arg = if 1 < (splitAssignment (c :: rest)).1.utf8ByteSize ∧ (f.find? (splitAssignment (c :: rest)).1).isSome
      then f.readLong "-" (c :: rest) else f.readShort c rest := by
  rw [read.eq_def, harg]
  split <;> simp_all

theorem read_named (harg : arg.toList = '-' :: c :: rest) (hc : c ≠ '-') (h : f.NamesFlag (c :: rest)) :
    f.read arg = f.readLong "-" (c :: rest) := by
  rw [read_dash harg hc]
  exact if_pos h

theorem read_lettered (harg : arg.toList = '-' :: c :: rest) (hc : c ≠ '-') (h : ¬f.NamesFlag (c :: rest)) :
    f.read arg = f.readShort c rest := by
  rw [read_dash harg hc]
  exact if_neg h

/-- A name behind its dashes is read as a flag, with or without a value. -/
theorem MayName.read {dashes : String} (h : MayName dashes name) (hfind : f.find? name = some flag)
    (harg : arg.toList = dashes.toList ++ assignment name value) :
    f.read arg = f.readLong dashes (assignment name value) := by
  obtain ⟨hname, hsign, rfl | ⟨rfl, hsize, hhead⟩⟩ := h
  · apply read_doubleDash harg
    cases value <;> simp [assignment, hname]
  · have hlist := head?_assignment hname value
    cases hbody : assignment name value with
    | nil =>
        rw [hbody] at hlist
        exact absurd (List.head?_eq_none_iff.mp hlist.symm) (by simpa using hname)
    | cons c rest =>
        rw [hbody] at harg hlist
        have hc : c ≠ '-' := by
          rintro rfl
          exact hhead hlist.symm
        apply read_named harg hc
        rw [NamesFlag, ← hbody, splitAssignment_assignment hsign]
        exact ⟨hsize, by simp [hfind]⟩

/-- What is asked of the flags comes from a name or from a letter. -/
theorem read_cases (f : FlagSet) (arg : String) :
    (∀ c cs, arg.toList ≠ '-' :: c :: cs) ∨ arg = "--" ∨ (∃ e, f.read arg = .refused e) ∨
      (∃ dashes name value flag, arg = spelled [.dashes dashes, .flag name value] ∧ MayName dashes name ∧
        f.find? name = some flag) ∨
      ∃ c rest flag, arg.toList = '-' :: c :: rest ∧ f.Stands c rest flag := by
  by_cases hplain : ∀ c cs, arg.toList ≠ '-' :: c :: cs
  · exact .inl hplain
  push Not at hplain
  obtain ⟨c, cs, harg⟩ := hplain
  by_cases hterminator : arg = "--"
  · exact .inr (.inl hterminator)
  by_cases hrefused : ∃ e, f.read arg = .refused e
  · exact .inr (.inr (.inl hrefused))
  push Not at hrefused
  refine .inr (.inr (.inr ?_))
  by_cases hc : c = '-'
  · subst hc
    have hbody : cs ≠ [] := by
      rintro rfl
      exact hterminator (String.toList_inj.mp harg)
    rw [read_doubleDash harg hbody] at hrefused
    obtain ⟨name, value, flag, hname, hsign, rfl, hfind⟩ := exists_assignment hrefused
    refine .inl ⟨"--", name, value, flag, ?_, ⟨hname, hsign, .inl rfl⟩, hfind⟩
    apply String.toList_inj.mp
    simp [spelled, Stretch.chars, harg]
  by_cases hnames : f.NamesFlag (c :: cs)
  · rw [read_named harg hc hnames] at hrefused
    obtain ⟨name, value, flag, hname, hsign, hbody, hfind⟩ := exists_assignment hrefused
    rw [NamesFlag, hbody, splitAssignment_assignment hsign] at hnames
    have hhead : name.toList.head? ≠ some '-' := by
      rw [← head?_assignment hname value, ← hbody]
      simpa using hc
    refine .inl ⟨"-", name, value, flag, ?_, ⟨hname, hsign, .inr ⟨rfl, hnames.1, hhead⟩⟩, hfind⟩
    apply String.toList_inj.mp
    simp [spelled, Stretch.chars, harg, hbody]
  · cases hletter : f.findShorthand? c with
    | none =>
        rw [read_lettered harg hc hnames, readShort, hletter] at hrefused
        exact absurd rfl (hrefused _)
    | some flag => exact .inr ⟨c, cs, flag, harg, hc, hnames, hletter⟩

theorem spelled_named (dashes name : String) (value : Option String) :
    (spelled [.dashes dashes, .flag name value]).toList = dashes.toList ++ assignment name value := by
  simp [spelled, Stretch.chars]

theorem MayName.read_spelled {dashes : String} (h : MayName dashes name) (hfind : f.find? name = some flag)
    (value : Option String) :
    f.read (spelled [.dashes dashes, .flag name value]) = if value = none ∧ flag.value.takesArgument = true
      then .wants name (dashes ++ name) else .sets name [value.getD ""] none := by
  rw [h.read hfind (spelled_named dashes name value), readLong_assignment dashes h.1 h.2.1 hfind]

theorem setAll_singleton (f : FlagSet) (name text : String) : f.setAll name [text] = f.set name text := by
  rw [setAll]
  rcases f.set name text with ⟨g, _ | e⟩ <;> rfl

theorem spelled_lettered (c : Char) (stretches : List Stretch) :
    (spelled (.dashes "-" :: .letter c :: stretches)).toList = '-' :: c :: stretches.flatMap Stretch.chars := by
  simp [spelled, Stretch.chars]

theorem flatMap_letters (n : Nat) (c : Char) :
    (List.replicate n (Stretch.letter c)).flatMap Stretch.chars = List.replicate n c := by
  induction n with
  | zero => rfl
  | succ n ih => rw [List.replicate_succ, List.flatMap_cons, ih]; rfl

/-- What a letter sets, it sets by itself, by its repetitions, or by the text behind it. -/
theorem Stands.uses (h : f.Stands c rest flag) (hread : f.readShort c rest = .sets name texts none)
    (hset : f.setAll name texts = (g, none)) : ∃ stretches,
      (spelled stretches).toList = '-' :: c :: rest ∧ Uses f [stretches] g := by
  have hletter := h.2.2
  cases hkind : flag.value with
  | switch on =>
      rw [readShort_switch hletter hkind] at hread
      cases hread
      rw [setAll_singleton] at hset
      by_cases hrest : rest = []
      · subst hrest
        exact ⟨_, spelled_lettered c [], .switched h hkind hset⟩
      · refine ⟨[.dashes "-", .letter c, .idle (String.ofList rest)], ?_, ?_⟩
        · simp [spelled_lettered, Stretch.chars]
        · exact .passedOver (by simpa using h) (by simpa using hrest) hkind hset
  | count k =>
      have hrest := eq_replicate_of_count hletter hkind hread
      rw [hrest] at hread h
      rw [readShort_count hletter hkind] at hread
      cases hread
      refine ⟨_, ?_, .counted h hkind hset⟩
      rw [List.replicate_succ, spelled_lettered, flatMap_letters, ← hrest]
  | _ =>
      have htakes : flag.value.takesArgument = true := by rw [hkind]; rfl
      rw [readShort_valued hletter htakes] at hread
      split at hread
      · cases hread
      · rename_i hrest
        cases hread
        rw [setAll_singleton] at hset
        refine ⟨[.dashes "-", .letter c, .value (String.ofList rest)], ?_, ?_⟩
        · simp [spelled_lettered, Stretch.chars]
        · exact .attached (by simpa using h) (by simpa using hrest) htakes hset

/-- A flag that is set is set by the stretches of its argument. -/
theorem uses_of_sets (hread : f.read arg = .sets name texts none) (hset : f.setAll name texts = (g, none)) :
    ∃ stretches, spelled stretches = arg ∧ Uses f [stretches] g := by
  rcases read_cases f arg with hplain | rfl | ⟨e, hrefused⟩ | ⟨dashes, n, value, flag, rfl, hmay, hfind⟩ |
    ⟨c, rest, flag, harg, hstands⟩
  · rw [read_plain hplain] at hread
    cases hread
  · cases hread
  · rw [hrefused] at hread
    cases hread
  · rw [hmay.read_spelled hfind] at hread
    split at hread
    · cases hread
    · rename_i hvalue
      cases hread
      rw [setAll_singleton] at hset
      exact ⟨_, rfl, .named hmay hfind (by simpa using hvalue) hset⟩
  · rw [read_lettered harg hstands.1 hstands.2.1] at hread
    obtain ⟨stretches, hspelled, huses⟩ := hstands.uses hread hset
    exact ⟨stretches, String.toList_inj.mp (hspelled.trans harg.symm), huses⟩

/-- A flag that takes the next argument is given all of it. -/
theorem uses_of_wants {text : String} (hread : f.read arg = .wants name shown) (hset : f.set name text = (g, none)) :
    ∃ stretches, spelled stretches = arg ∧ Uses f [stretches, [.value text]] g := by
  rcases read_cases f arg with hplain | rfl | ⟨e, hrefused⟩ | ⟨dashes, n, value, flag, rfl, hmay, hfind⟩ |
    ⟨c, rest, flag, harg, hstands⟩
  · rw [read_plain hplain] at hread
    cases hread
  · cases hread
  · rw [hrefused] at hread
    cases hread
  · rw [hmay.read_spelled hfind] at hread
    split at hread
    · rename_i hvalue
      cases hread
      obtain ⟨rfl, htakes⟩ := hvalue
      exact ⟨_, rfl, .namedNext hmay hfind htakes hset⟩
    · cases hread
  · rw [read_lettered harg hstands.1 hstands.2.1] at hread
    have hletter := hstands.2.2
    by_cases htakes : flag.value.takesArgument = true
    · rw [readShort_valued hletter htakes] at hread
      split at hread
      · rename_i hrest
        cases hread
        subst hrest
        refine ⟨_, String.toList_inj.mp ?_, .letterNext hstands htakes hset⟩
        rw [harg, spelled_lettered]
        rfl
      · cases hread
    · rw [readShort, hletter] at hread
      cases hkind : flag.value <;> simp_all [FlagValue.takesArgument]

/-- A positional argument is a dash alone or does not begin with one. -/
theorem plain_of_read_positional (h : f.read arg = .positional) (c : Char) (cs : List Char) :
    arg.toList ≠ '-' :: c :: cs := by
  have hshort : ∀ letter rest, f.readShort letter rest ≠ .positional := by
    intro letter rest
    rw [readShort]
    grind
  rcases read_cases f arg with hplain | rfl | ⟨e, hrefused⟩ | ⟨dashes, n, value, flag, rfl, hmay, hfind⟩ |
    ⟨c, rest, flag, harg, hstands⟩
  · exact hplain c cs
  · cases h
  · rw [hrefused] at h
    cases h
  · rw [hmay.read_spelled hfind] at h
    split at h <;> cases h
  · rw [read_lettered harg hstands.1 hstands.2.1] at h
    exact absurd h (hshort c rest)

/-- Whatever is read to its end is used, stretch by stretch. -/
theorem Reads.spends {ps : List Piece} (h : Reads f ps g) :
    ∃ used, used.map spelled = ps.flatMap Piece.arguments ∧ Spends f used g := by
  induction h with
  | nil => exact ⟨[], rfl, .nil⟩
  | @positional f g arg ps hread _ ih =>
      obtain ⟨used, hused, hspends⟩ := ih
      refine ⟨[[.positional arg]] ++ used, ?_, .cons (.positional (plain_of_read_positional hread)) hspends⟩
      simp [hused, spelled, Stretch.chars, Piece.arguments]
  | flag hread hset _ ih =>
      obtain ⟨used, hused, hspends⟩ := ih
      obtain ⟨stretches, rfl, huses⟩ := uses_of_sets hread hset
      refine ⟨[stretches] ++ used, ?_, .cons huses hspends⟩
      simp [hused, Piece.arguments]
  | @valued f _ g arg value _ _ ps hread hset _ ih =>
      obtain ⟨used, hused, hspends⟩ := ih
      obtain ⟨stretches, rfl, huses⟩ := uses_of_wants hread hset
      refine ⟨[stretches, [.value value]] ++ used, ?_, .cons huses hspends⟩
      simp [hused, Piece.arguments, spelled, Stretch.chars]

/-- What a flag uses is read as one piece. -/
theorem Uses.reads {args : List (List Stretch)} {ps : List Piece} {f' : FlagSet} (h : Uses f args f')
    (hreads : Reads f' ps g) : ∃ p : Piece, p.arguments = args.map spelled ∧ Reads f (p :: ps) g := by
  have hvalue : ∀ text : String, spelled [.value text] = text := by
    intro text
    simp [spelled, Stretch.chars]
  cases h with
  | @positional arg hplain =>
      refine ⟨.positional arg, ?_, .positional (read_plain hplain) hreads⟩
      simp [Piece.arguments, spelled, Stretch.chars]
  | named hmay hfind hvalue hset =>
      refine ⟨.flag _, rfl, .flag ?_ (setAll_singleton .. ▸ hset) hreads⟩
      rw [hmay.read_spelled hfind, if_neg]
      rintro ⟨hnone, htakes⟩
      rw [hvalue hnone] at htakes
      cases htakes
  | @namedNext dashes name text flag _ hmay hfind htakes hset =>
      have hread := hmay.read_spelled hfind none
      rw [if_pos ⟨rfl, htakes⟩] at hread
      refine ⟨.valued _ text, ?_, .valued hread hset hreads⟩
      simp only [Piece.arguments, List.map_cons, List.map_nil, hvalue]
  | @counted c n flag k _ hstands hkind hset =>
      refine ⟨.flag _, rfl, .flag ?_ hset hreads⟩
      have hspelled := spelled_lettered c (List.replicate n (.letter c))
      rw [flatMap_letters] at hspelled
      rw [List.replicate_succ, read_lettered hspelled hstands.1 hstands.2.1, readShort_count hstands.2.2 hkind]
  | @switched c flag on _ hstands hkind hset =>
      refine ⟨.flag _, rfl, .flag ?_ (setAll_singleton .. ▸ hset) hreads⟩
      rw [read_lettered (spelled_lettered c []) hstands.1 hstands.2.1, readShort_switch hstands.2.2 hkind]
  | @attached c text flag _ hstands htext htakes hset =>
      have hspelled := spelled_lettered c [.value text]
      rw [List.flatMap_singleton] at hspelled
      refine ⟨.flag _, rfl, .flag ?_ (setAll_singleton .. ▸ hset) hreads⟩
      rw [read_lettered hspelled hstands.1 hstands.2.1, Stretch.chars, readShort_valued hstands.2.2 htakes,
        if_neg (by simpa using htext), String.ofList_toList]
  | @letterNext c text flag _ hstands htakes hset =>
      have hread := read_lettered (spelled_lettered c []) hstands.1 hstands.2.1
      rw [List.flatMap_nil, readShort_valued hstands.2.2 htakes, if_pos rfl] at hread
      refine ⟨.valued _ text, ?_, .valued hread hset hreads⟩
      simp only [Piece.arguments, List.map_cons, List.map_nil, hvalue]
  | @passedOver c text flag on _ hstands htext hkind hset =>
      have hspelled := spelled_lettered c [.idle text]
      rw [List.flatMap_singleton] at hspelled
      refine ⟨.flag _, rfl, .flag ?_ (setAll_singleton .. ▸ hset) hreads⟩
      rw [read_lettered hspelled hstands.1 hstands.2.1, readShort_switch hstands.2.2 hkind]

theorem Spends.reads {used : List (List Stretch)} (h : Spends f used g) :
    ∃ ps : List Piece, ps.flatMap Piece.arguments = used.map spelled ∧ Reads f ps g := by
  induction h with
  | nil => exact ⟨[], rfl, .nil⟩
  | cons huses _ ih =>
      obtain ⟨ps, hps, hreads⟩ := ih
      obtain ⟨p, hp, hreads⟩ := huses.reads hreads
      exact ⟨p :: ps, by rw [List.flatMap_cons, hp, hps, List.map_append], hreads⟩

/-! ### What flags keep while they are set -/

/-- A flag without what it holds and whether it was given. -/
def bare (flag : Flag) : Flag :=
  { flag with
    given := false
    value := match flag.value with
      | .text _ => .text ""
      | .switch _ => .switch false
      | .count _ => .count 0
      | .number _ => .number 0
      | .duration _ => .duration ⟨0⟩ }

/-- Two sets have the same flags, whatever these hold. -/
def Alike (f g : FlagSet) : Prop := f.flags.map bare = g.flags.map bare

theorem Alike.names (h : Alike f g) : f.flags.map Flag.name = g.flags.map Flag.name := by
  have hname : ∀ flags : List Flag, (flags.map bare).map Flag.name = flags.map Flag.name := by
    intro flags
    rw [List.map_map]
    rfl
  rw [← hname, h, hname]

theorem Alike.find? (h : Alike f g) {p : Flag → Bool} (hp : ∀ flag, p (bare flag) = p flag) :
    (f.flags.find? p).map bare = (g.flags.find? p).map bare := by
  have hfind : ∀ flags : List Flag, (flags.map bare).find? p = (flags.find? p).map bare := by
    intro flags
    rw [List.find?_map]
    congr 2
    funext flag
    exact hp flag
  rw [← hfind, h, hfind]

theorem bare_of_set {v w : FlagValue} {text : String} (h : v.set text = .ok w) (hvalue : flag.value = v) :
    bare { flag with given := true, value := w } = bare flag := by
  cases v <;> simp only [FlagValue.set] at h <;> grind [bare]

/-- Setting a flag changes what it holds and no more; names are distinct, so it is the flag that was found. -/
theorem alike_set (hnames : (f.flags.map Flag.name).Nodup) (hset : f.set name arg = (g, none)) : Alike f g := by
  rw [set] at hset
  cases hfind : f.find? name with
  | none =>
      rw [hfind] at hset
      cases hset
      rfl
  | some flag =>
      rw [hfind] at hset
      dsimp only at hset
      cases hvalue : flag.value.set arg with
      | error e => rw [hvalue] at hset; cases hset
      | ok w =>
          rw [hvalue] at hset
          cases hset
          rw [Alike, update, List.map_map]
          apply List.map_congr_left
          intro other hmem
          by_cases hname : other.name = name
          · have hother : other = flag := by
              have hflag := List.mem_of_find?_eq_some hfind
              apply List.inj_on_of_nodup_map hnames hmem hflag
              rw [hname, name_of_find? hfind]
            subst hother
            rw [Function.comp_apply, if_pos hname]
            exact (bare_of_set hvalue rfl).symm
          · rw [Function.comp_apply, if_neg hname]

theorem alike_setAll (hnames : (f.flags.map Flag.name).Nodup) (hset : f.setAll name texts = (g, none)) :
    Alike f g := by
  induction texts generalizing f with
  | nil =>
      cases hset
      rfl
  | cons text texts ih =>
      rw [setAll] at hset
      rcases hfirst : f.set name text with ⟨f', _ | e⟩
      · rw [hfirst] at hset
        have halike := alike_set hnames hfirst
        exact halike.trans (ih (halike.names ▸ hnames) hset)
      · rw [hfirst] at hset
        cases hset

theorem Uses.alike {args : List (List Stretch)} (h : Uses f args g) (hnames : (f.flags.map Flag.name).Nodup) :
    Alike f g := by
  cases h with
  | positional _ => rfl
  | counted _ _ hset => exact alike_setAll hnames hset
  | named _ _ _ hset | namedNext _ _ _ hset | switched _ _ hset | attached _ _ _ hset | letterNext _ _ hset
  | passedOver _ _ _ hset => exact alike_set hnames hset

/-- Whether an argument is overlong depends on what flags there are, not on what they hold. -/
theorem Alike.overlong (h : Alike f g) (hlong : g.Overlong arg) : f.Overlong arg := by
  obtain ⟨c, rest, flag, on, harg, hrest, ⟨hc, hnames, hletter⟩, hkind⟩ := hlong
  have hfind : ∀ name, (f.find? name).map bare = (g.find? name).map bare := fun name => h.find? fun _ => rfl
  have hshort : (f.findShorthand? c).map bare = (g.findShorthand? c).map bare := by
    rw [findShorthand?, findShorthand?]
    split
    · exact h.find? fun _ => rfl
    · rfl
  rw [hletter, Option.map_some, Option.map_eq_some_iff] at hshort
  obtain ⟨flag', hletter', hbare⟩ := hshort
  have hkind' : ∃ on, flag'.value = .switch on := by
    have hvalue := congrArg Flag.value hbare
    simp only [bare, hkind] at hvalue
    cases hflag : flag'.value <;> simp_all
  obtain ⟨on', hkind'⟩ := hkind'
  refine ⟨c, rest, flag', on', harg, hrest, ⟨hc, ?_, hletter'⟩, hkind'⟩
  rintro ⟨hsize, hsome⟩
  refine hnames ⟨hsize, ?_⟩
  rw [← Option.isSome_map (f := bare)] at hsome ⊢
  rw [← hfind]
  exact hsome

theorem Uses.overlong {args : List (List Stretch)} (h : Uses f args g) {stretches : List Stretch}
    (hmem : stretches ∈ args) {text : String} (hidle : .idle text ∈ stretches) :
    f.Overlong (spelled stretches) := by
  cases h with
  | @passedOver c rest flag on _ hstands hne hkind _ =>
      rw [List.mem_singleton] at hmem
      subst hmem
      refine ⟨c, rest.toList, flag, on, ?_, by simpa using hne, hstands, hkind⟩
      rw [spelled_lettered, List.flatMap_singleton, Stretch.chars]
  | namedNext | letterNext =>
      simp only [List.mem_cons, List.not_mem_nil, or_false] at hmem
      rcases hmem with rfl | rfl <;> simp at hidle
  | _ => simp_all

/-- Only behind the letter of a switch is there text that nothing is done with. -/
theorem Spends.overlong {used : List (List Stretch)} (h : Spends f used g) (hnames : (f.flags.map Flag.name).Nodup)
    {stretches : List Stretch} (hmem : stretches ∈ used) {text : String} (hidle : .idle text ∈ stretches) :
    f.Overlong (spelled stretches) := by
  induction h with
  | nil => cases hmem
  | cons huses _ ih =>
      have halike := huses.alike hnames
      rcases List.mem_append.mp hmem with hhere | hlater
      · exact huses.overlong hhere hidle
      · exact halike.overlong (ih (halike.names ▸ hnames) hlater)

theorem mem_of_findShorthand? (h : f.findShorthand? c = some flag) :
    flag ∈ f.flags ∧ flag.shorthand = String.singleton c := by
  rw [findShorthand?] at h
  split at h
  · exact ⟨List.mem_of_find?_eq_some h, by simpa using List.find?_some h⟩
  · cases h

/-- A command line is read to its end exactly if its arguments up to a `--` divide into stretches of which each
is used: an argument that is no flag, a name of a flag with the value behind its equals sign, a value of its own,
a value behind a letter, or a letter that sets a flag or counts once. Of a set of flags with distinct names,
only an argument with the letter of a switch and text behind it has a stretch that nothing is done with; without
such an argument every stretch is used. -/
theorem accepted_text_used (f : FlagSet) (xs : List String) :
    (∀ g, f.parse xs = (g, none) ↔ ∃ (used : List (List Stretch)) (behind : Option (List String)) (h : FlagSet),
      xs = used.map spelled ++ (behind.map ("--" :: ·)).getD [] ∧ Spends { f with args := [] } used h ∧
      g = { h with args := h.args ++ behind.getD [] }) ∧
    ((f.flags.map Flag.name).Nodup → ∀ used h, Spends { f with args := [] } used h →
      ∀ stretches ∈ used, ∀ text, .idle text ∈ stretches → f.Overlong (spelled stretches)) := by
  refine ⟨fun g => ⟨fun hparse => ?_, ?_⟩, fun hnames used h hspends stretches hmem text hidle => ?_⟩
  · obtain ⟨⟨ps, behind⟩, h, rfl, hreads, hg⟩ := exists_reads hparse
    obtain ⟨used, hused, hspends⟩ := hreads.spends
    refine ⟨used, behind, h, ?_, hspends, hg⟩
    rw [Division.arguments, hused]
    cases behind <;> rfl
  · rintro ⟨used, behind, h, rfl, hspends, rfl⟩
    obtain ⟨ps, hps, hreads⟩ := hspends.reads
    rw [← hps, parse, hreads.parseMore_append]
    cases behind with
    | none => simp [parseMore]
    | some rest => exact parseMore_terminator h rest
  · exact hspends.overlong hnames hmem hidle

/-- Every form of a flag, a value that looks like a flag, and arguments behind a `--`. -/
theorem accepted_text_used_forms :
    let f : FlagSet :=
      { flags := [.ofText "output" "o" "" "" "", .ofSwitch "trace" "t" false "", .ofCount "verbose" "v" ""] }
    let xs := ["-vv", "-t", "in", "--output=a", "-ob", "-o", "--trace", "-trace", "--", "-x"]
    (f.parse xs).2 = none ∧ (f.flags.map Flag.name).Nodup ∧
      ∃ (used : List (List Stretch)) (behind : Option (List String)) (h : FlagSet),
        xs = used.map spelled ++ (behind.map ("--" :: ·)).getD [] ∧ Spends { f with args := [] } used h ∧
        (f.parse xs).1 = { h with args := h.args ++ behind.getD [] } ∧
        ∀ stretches ∈ used, ∀ text, .idle text ∉ stretches := by
  intro f xs
  have hparse : (f.parse xs).2 = none := by decide +kernel
  have hnames : (f.flags.map Flag.name).Nodup := by decide +kernel
  have hshort : ∀ arg ∈ xs, ¬f.Overlong arg := by
    rintro arg hmem ⟨c, rest, flag, on, harg, hrest, ⟨-, hname, hletter⟩, hkind⟩
    obtain ⟨hflag, hc⟩ := mem_of_findShorthand? hletter
    have hswitch : (f.flags.all fun flag => flag.value.takesArgument || flag.value == .count 0 ||
        flag.shorthand == "t") = true := by decide +kernel
    have hbegin : (xs.all fun arg =>
        !("-t".toList.isPrefixOf arg.toList) || arg == "-t" || arg == "-trace") = true := by decide +kernel
    have ht := List.all_eq_true.mp hswitch flag hflag
    rw [hkind] at ht
    have hct : c = 't' := by
      have hsingle : String.singleton c = "t" := by simpa [FlagValue.takesArgument, hc] using ht
      simpa using congrArg String.toList hsingle
    subst hct
    have harg' := List.all_eq_true.mp hbegin arg hmem
    simp only [harg, Bool.or_eq_true, beq_iff_eq] at harg'
    rcases harg' with (hno | rfl) | rfl
    · simp at hno
    · exact hrest (by simpa using harg.symm)
    · obtain rfl : rest = "race".toList := by simpa using harg.symm
      exact hname ⟨by decide +kernel, by decide +kernel⟩
  obtain ⟨used, behind, h, hxs, hspends, hg⟩ := ((accepted_text_used f xs).1 _).mp (Prod.ext rfl hparse)
  refine ⟨hparse, hnames, used, behind, h, hxs, hspends, hg, fun stretches hmem text hidle => ?_⟩
  have hlong := (accepted_text_used f xs).2 hnames used h hspends stretches hmem text hidle
  apply hshort _ _ hlong
  rw [hxs]
  exact List.mem_append_left _ (List.mem_map_of_mem hmem)

/-- The text behind the letter of a switch has no effect, and there is no way to divide it so that it has a use. -/
theorem switch_passes_over_text :
    let f : FlagSet := { flags := [.ofSwitch "trace" "t" false ""] }
    (f.parse ["-tx"]).2 = none ∧ f.parse ["-tx"] = f.parse ["-t"] ∧
      ¬∃ (used : List (List Stretch)) (h : FlagSet), ["-tx"] = used.map spelled ∧
        Spends { f with args := [] } used h ∧ ∀ stretches ∈ used, ∀ text, .idle text ∉ stretches := by
  intro f
  refine ⟨by decide +kernel, by decide +kernel, ?_⟩
  rintro ⟨used, h, htext, hspends, hall⟩
  have honly : ∀ flag ∈ f.flags, flag = .ofSwitch "trace" "t" false "" := by
    intro flag hmem
    simpa [f] using hmem
  have hlong : ∀ {name dashes : String} {value : Option String} {flag : Flag}, f.find? name = some flag →
      spelled [.dashes dashes, .flag name value] ≠ "-tx" := by
    rintro name dashes value flag hfind hspelled
    obtain rfl := honly flag (List.mem_of_find?_eq_some hfind)
    obtain rfl := name_of_find? hfind
    have hlength := congrArg (fun s => s.toList.length) hspelled
    rw [spelled_named] at hlength
    cases value <;> simp [assignment, Flag.ofSwitch] at hlength
    all_goals omega
  cases hspends with
  | nil => cases htext
  | cons huses _ =>
      cases huses with
      | positional hplain =>
          refine hplain 't' ['x'] ?_
          simpa [spelled, Stretch.chars] using congrArg String.toList (List.cons.inj htext).1.symm
      | named _ hfind _ _ => exact hlong hfind (List.cons.inj htext).1.symm
      | namedNext _ hfind _ _ => exact hlong hfind (List.cons.inj htext).1.symm
      | counted hstands hkind _ =>
          obtain rfl := honly _ (mem_of_findShorthand? hstands.2.2).1
          cases hkind
      | switched _ _ _ =>
          have hlist := congrArg String.toList (List.cons.inj htext).1
          rw [spelled_lettered] at hlist
          cases hlist
      | attached hstands _ htakes _ =>
          obtain rfl := honly _ (mem_of_findShorthand? hstands.2.2).1
          cases htakes
      | letterNext hstands htakes _ =>
          obtain rfl := honly _ (mem_of_findShorthand? hstands.2.2).1
          cases htakes
      | passedOver _ _ _ _ => exact hall _ List.mem_cons_self _ (by simp; rfl)

end BlockLang.FlagSet

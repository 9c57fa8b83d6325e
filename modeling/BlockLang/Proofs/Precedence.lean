import BlockLang.Proofs.Mentions
import BlockLang.Settings.File

/-! Which setting prevails. A table of switches in a settings file has no order: its entry for all warnings is
obeyed before the others, and the others do not touch each other. Flags prevail over the file, the flag that
turns off over the one that turns on, and what is said of one warning over what is said of all. So the settings
depend on which entries and which flags there are, and not on their order or number. -/

namespace BlockLang

section Lookup

variable {es es' : List (String × Bool)} {name : String} {on : Bool}

theorem lookup_cons_of_ne {other : String} (h : other ≠ name) : ((name, on) :: es).lookup other = es.lookup other := by
  rw [List.lookup_cons, beq_false_of_ne h]

theorem lookup_eq_none (h : ∀ e ∈ es, e.1 ≠ name) : es.lookup name = none :=
  List.lookup_eq_none_iff.mpr fun e he => bne_iff_ne.mpr (h e he).symm

theorem lookup_eq_some_iff_mem (hkeys : (es.map Prod.fst).Nodup) : es.lookup name = some on ↔ (name, on) ∈ es := by
  constructor
  · intro h
    obtain ⟨front, back, rfl, -⟩ := List.lookup_eq_some_iff.mp h
    exact List.mem_append_right _ List.mem_cons_self
  · intro h
    obtain ⟨front, back, rfl⟩ := List.append_of_mem h
    rw [List.map_append, List.map_cons, List.nodup_middle, List.nodup_cons] at hkeys
    refine List.lookup_eq_some_iff.mpr ⟨front, back, rfl, fun e he => bne_iff_ne.mpr fun heq => ?_⟩
    exact hkeys.1 (List.mem_append_left _ (List.mem_map.mpr ⟨e, he, heq.symm⟩))

/-- Two orders of one table say the same. -/
theorem lookup_perm (h : es.Perm es') (hkeys : (es.map Prod.fst).Nodup) (name : String) :
    es.lookup name = es'.lookup name := by
  have hkeys' : (es'.map Prod.fst).Nodup := (h.map Prod.fst).nodup_iff.mp hkeys
  apply Option.ext
  intro on
  rw [lookup_eq_some_iff_mem hkeys, lookup_eq_some_iff_mem hkeys', h.mem_iff]

end Lookup

theorem Warning.name_ne_all (w : Warning) : w.name ≠ "all" := by cases w <;> decide

theorem Warning.name_inj {w w' : Warning} : w.name = w'.name ↔ w = w' := by
  constructor
  · cases w <;> cases w' <;> decide
  · rintro rfl
    rfl

theorem Feature.name_ne_all (x : Feature) : x.name ≠ "all" := by cases x <;> decide

theorem Feature.name_inj {x x' : Feature} : x.name = x'.name ↔ x = x' := by
  constructor
  · cases x <;> cases x' <;> decide
  · rintro rfl
    rfl

namespace Settings

def single (name : String) (on : Bool) : String → Option Bool := fun n => if n = name then some on else none

def withWarnings (s : Settings) (table : String → Option Bool) : Settings :=
  { s with
    warning := fun w => ((table w.name).or (if w = .pedantic then none else table "all")).getD (s.warning w) }

def withFeatures (s : Settings) (table : String → Option Bool) : Settings :=
  { s with feature := fun x => (table x.name).getD (s.feature x) }

@[simp]
theorem warning_withWarnings (s : Settings) (table : String → Option Bool) (w : Warning) :
    (s.withWarnings table).warning w =
      ((table w.name).or (if w = .pedantic then none else table "all")).getD (s.warning w) := rfl

@[simp]
theorem feature_withFeatures (s : Settings) (table : String → Option Bool) (x : Feature) :
    (s.withFeatures table).feature x = (table x.name).getD (s.feature x) := rfl

theorem setAllWarnings_eq (s : Settings) (on : Bool) : s.setAllWarnings on = s.withWarnings (single "all" on) := by
  have hpoint : ∀ w, (s.setAllWarnings on).warning w = (s.withWarnings (single "all" on)).warning w := by
    intro w
    have hnone : single "all" on w.name = none := if_neg w.name_ne_all
    rw [warning_withWarnings, hnone, Option.none_or, setAllWarnings]
    dsimp only
    split <;> rfl
  exact congrArg (fun warning => { s with warning := warning }) (funext hpoint)

theorem setWarning_eq (s : Settings) (w : Warning) (on : Bool) :
    s.setWarning w on = s.withWarnings (single w.name on) := by
  have hpoint : ∀ w', (s.setWarning w on).warning w' = (s.withWarnings (single w.name on)).warning w' := by
    intro w'
    have hnone : single w.name on "all" = none := if_neg w.name_ne_all.symm
    rw [warning_withWarnings, hnone, ite_self, Option.or_none, setWarning]
    simp only [single, Warning.name_inj]
    split <;> rfl
  exact congrArg (fun warning => { s with warning := warning }) (funext hpoint)

theorem setFeature_eq (s : Settings) (x : Feature) (on : Bool) :
    s.setFeature x on = s.withFeatures (single x.name on) := by
  have hpoint : ∀ x', (s.setFeature x on).feature x' = (s.withFeatures (single x.name on)).feature x' := by
    intro x'
    rw [feature_withFeatures, setFeature]
    simp only [single, Feature.name_inj]
    split <;> rfl
  exact congrArg (fun feature => { s with feature := feature }) (funext hpoint)

theorem setWarningNamed_eq {name : String} (h : name = "all" ∨ ∃ w : Warning, w.name = name) (s : Settings)
    (on : Bool) : s.setWarningNamed name on = .ok (s.withWarnings (single name on)) := by
  rw [setWarningNamed]
  obtain rfl | ⟨w, rfl⟩ := h
  · rw [if_pos rfl, setAllWarnings_eq]
  · have hfind : Warning.ofName? w.name = some w := by cases w <;> decide
    rw [if_neg w.name_ne_all, hfind, ← setWarning_eq]

theorem setFeatureNamed_eq {name : String} (h : ∃ x : Feature, x.name = name) (s : Settings) (on : Bool) :
    s.setFeatureNamed name on = .ok (s.withFeatures (single name on)) := by
  obtain ⟨x, rfl⟩ := h
  have hfind : Feature.ofName? x.name = some x := by cases x <;> decide
  rw [setFeatureNamed, hfind, ← setFeature_eq]

/-- What is said later of one warning prevails, also over what was said of all. -/
theorem withWarnings_withWarnings (s : Settings) (first : String → Option Bool) {second : String → Option Bool}
    (h : second "all" = none) :
    (s.withWarnings first).withWarnings second = s.withWarnings fun n => (second n).or (first n) := by
  have hpoint : ∀ w, ((s.withWarnings first).withWarnings second).warning w =
      (s.withWarnings fun n => (second n).or (first n)).warning w := by
    intro w
    simp only [warning_withWarnings, h, ite_self, Option.or_none, Option.none_or]
    cases second w.name <;> rfl
  exact congrArg (fun warning => { s with warning := warning }) (funext hpoint)

theorem withFeatures_withFeatures (s : Settings) (first second : String → Option Bool) :
    (s.withFeatures first).withFeatures second = s.withFeatures fun n => (second n).or (first n) := by
  have hpoint : ∀ x, ((s.withFeatures first).withFeatures second).feature x =
      (s.withFeatures fun n => (second n).or (first n)).feature x := by
    intro x
    simp only [feature_withFeatures]
    cases second x.name <;> rfl
  exact congrArg (fun feature => { s with feature := feature }) (funext hpoint)

end Settings

/-! ### Settings files -/

namespace SettingsFile

section Obeying

variable {es : List (String × Bool)} (hkeys : (es.map Prod.fst).Nodup)

include hkeys in
/-- The entries of a table are obeyed together, as long as nothing is said of all after the first entry: what the
rest says, which is nothing of the first entry's name, is laid over what the first entry says. -/
theorem obey_eq {set : Settings → String → Bool → Except SettingsError Settings}
    {put : Settings → (String → Option Bool) → Settings}
    (hset : ∀ e ∈ es, ∀ s, set s e.1 e.2 = .ok (put s (Settings.single e.1 e.2)))
    (hnil : ∀ s, put s (fun _ => none) = s)
    (hput : ∀ s first (second : String → Option Bool), second "all" = none →
      put (put s first) second = put s fun n => (second n).or (first n))
    (hall : ∀ e ∈ es.tail, e.1 ≠ "all") (s : Settings) :
    obey set s es = (put s (List.lookup · es), none) := by
  induction es generalizing s with
  | nil => exact congrArg (·, none) (hnil s).symm
  | cons e es ih =>
      obtain ⟨hfirst, hrest⟩ := List.forall_mem_cons.mp hset
      rw [List.map_cons, List.nodup_cons] at hkeys
      have htail : ∀ e' ∈ es.tail, e'.1 ≠ "all" := fun e' he' => hall e' (List.mem_of_mem_tail he')
      have hmerge : ∀ n, (es.lookup n).or (Settings.single e.1 e.2 n) = (e :: es).lookup n := by
        intro n
        by_cases hn : n = e.1
        · subst hn
          have hnone : es.lookup e.1 = none :=
            lookup_eq_none fun e' he' heq => hkeys.1 (List.mem_map.mpr ⟨e', he', heq⟩)
          rw [hnone, Option.none_or, Settings.single, if_pos rfl]
          exact List.lookup_cons_self.symm
        · rw [Settings.single, if_neg hn, Option.or_none]
          exact (lookup_cons_of_ne hn).symm
      rw [obey, hfirst s]
      dsimp only
      rw [ih hkeys.2 hrest htail, hput _ _ _ (lookup_eq_none hall), funext hmerge]

theorem before_iff {a b : String × Bool} : before a b = true ↔ a.1 = "all" ∨ (b.1 ≠ "all" ∧ a.1 ≤ b.1) := by
  simp [before]

/-- Entries are sorted with what is said of all in front, and the others by name. -/
theorem pairwise_mergeSort_before (es : List (String × Bool)) :
    (es.mergeSort before).Pairwise fun a b => before a b = true := by
  apply List.pairwise_mergeSort
  · intro a b c hab hbc
    rw [before_iff] at hab hbc ⊢
    obtain ha | ⟨hb, hab⟩ := hab
    · exact .inl ha
    · obtain hb' | ⟨hc, hbc⟩ := hbc
      · exact absurd hb' hb
      · exact .inr ⟨hc, String.le_trans hab hbc⟩
  · intro a b
    rw [Bool.or_eq_true, before_iff, before_iff]
    by_cases ha : a.1 = "all"
    · exact .inl (.inl ha)
    · by_cases hb : b.1 = "all"
      · exact .inr (.inl hb)
      · exact (String.le_total a.1 b.1).imp (fun h => .inr ⟨hb, h⟩) (fun h => .inr ⟨ha, h⟩)

include hkeys in
/-- The entry for all warnings comes first. -/
theorem ne_all_of_mem_tail : ∀ e ∈ (es.mergeSort before).tail, e.1 ≠ "all" := by
  have hsorted := pairwise_mergeSort_before es
  have hkeys' : ((es.mergeSort before).map Prod.fst).Nodup := ((es.mergeSort_perm before).map _).nodup_iff.mpr hkeys
  cases hsort : es.mergeSort before with
  | nil =>
      intro e he
      cases he
  | cons first rest =>
      rw [hsort] at hsorted hkeys'
      rw [List.map_cons, List.nodup_cons] at hkeys'
      intro e he hall
      obtain hfirst | ⟨hne, -⟩ := before_iff.mp ((List.pairwise_cons.mp hsorted).1 e he)
      · exact hkeys'.1 (List.mem_map.mpr ⟨e, he, hall.trans hfirst.symm⟩)
      · exact hne hall

include hkeys in
theorem obey_warnings (hknown : ∀ e ∈ es, e.1 = "all" ∨ ∃ w : Warning, w.name = e.1) (s : Settings) :
    obey Settings.setWarningNamed s (es.mergeSort before) = (s.withWarnings (List.lookup · es), none) := by
  have hperm := es.mergeSort_perm before
  have hkeys' : ((es.mergeSort before).map Prod.fst).Nodup := (hperm.map _).nodup_iff.mpr hkeys
  have hset : ∀ e ∈ es.mergeSort before, ∀ s : Settings,
      s.setWarningNamed e.1 e.2 = .ok (s.withWarnings (Settings.single e.1 e.2)) :=
    fun e he s => Settings.setWarningNamed_eq (hknown e (hperm.mem_iff.mp he)) s e.2
  have hnil : ∀ s : Settings, s.withWarnings (fun _ => none) = s := by
    intro s
    simp [Settings.withWarnings]
  rw [obey_eq hkeys' hset hnil (fun s first _ h => s.withWarnings_withWarnings first h) (ne_all_of_mem_tail hkeys),
    funext (lookup_perm hperm hkeys')]

include hkeys in
theorem obey_features (hknown : ∀ e ∈ es, ∃ x : Feature, x.name = e.1) (s : Settings) :
    obey Settings.setFeatureNamed s es = (s.withFeatures (List.lookup · es), none) := by
  have hset : ∀ e ∈ es, ∀ s : Settings,
      s.setFeatureNamed e.1 e.2 = .ok (s.withFeatures (Settings.single e.1 e.2)) :=
    fun e he s => Settings.setFeatureNamed_eq (hknown e he) s e.2
  have hall : ∀ e ∈ es.tail, e.1 ≠ "all" := by
    intro e he
    obtain ⟨x, hx⟩ := hknown e (List.mem_of_mem_tail he)
    exact hx ▸ x.name_ne_all
  exact obey_eq hkeys hset (fun _ => rfl) (fun s first second _ => s.withFeatures_withFeatures first second) hall s

end Obeying

/-- A file names no switch twice, and none that there is not. -/
structure WellNamed (file : SettingsFile) : Prop where
  warnings_distinct : (file.warnings.map Prod.fst).Nodup
  warnings_known : ∀ e ∈ file.warnings, e.1 = "all" ∨ ∃ w : Warning, w.name = e.1
  features_distinct : (file.features.map Prod.fst).Nodup
  features_known : ∀ e ∈ file.features, ∃ x : Feature, x.name = e.1

variable {file : SettingsFile} {ws fs : List (String × Bool)}

/-- A file with distinct known names is obeyed to its end. -/
theorem WellNamed.apply_eq (h : file.WellNamed) (s : Settings) : file.apply s =
    ({ (s.withWarnings (List.lookup · file.warnings)).withFeatures (List.lookup · file.features) with
        trace := s.trace || file.trace
        leakCheck := s.leakCheck || file.leakCheck
        verbosity := if file.verbosity = 0 then s.verbosity else Int64.ofInt file.verbosity }, none) := by
  rw [apply, obey_warnings h.warnings_distinct h.warnings_known]
  dsimp only
  rw [obey_features h.features_distinct h.features_known]
  rfl

theorem WellNamed.perm (h : file.WellNamed) (hws : ws.Perm file.warnings) (hfs : fs.Perm file.features) :
    WellNamed { file with warnings := ws, features := fs } where
  warnings_distinct := (hws.map _).nodup_iff.mpr h.warnings_distinct
  warnings_known e he := h.warnings_known e (hws.mem_iff.mp he)
  features_distinct := (hfs.map _).nodup_iff.mpr h.features_distinct
  features_known e he := h.features_known e (hfs.mem_iff.mp he)

/-- The order of the tables does not matter. -/
theorem WellNamed.apply_perm (h : file.WellNamed) (hws : ws.Perm file.warnings) (hfs : fs.Perm file.features)
    (s : Settings) : apply { file with warnings := ws, features := fs } s = file.apply s := by
  have hperm := h.perm hws hfs
  rw [hperm.apply_eq, h.apply_eq, funext (lookup_perm hws hperm.warnings_distinct),
    funext (lookup_perm hfs hperm.features_distinct)]

end SettingsFile

namespace Mention

/-- A flag that is mentioned without a value. -/
def plain (form : Topic × Bool) : Mention := ⟨form.1, form.2, none⟩

variable (forms : List (Topic × Bool)) (t : Topic)

theorem map_text_plain :
    (forms.map plain).map text = forms.map fun form => "-" ++ form.1.flagName form.2 := by
  rw [List.map_map]
  exact List.map_congr_left fun form _ => String.append_empty

/-- What flags without values say of a topic. -/
def said? : Option Bool :=
  if (t, false) ∈ forms then some false else if (t, true) ∈ forms then some true else none

theorem said?_getD (b : Bool) : (said? forms t).getD b =
    if (t, false) ∈ forms then false else if (t, true) ∈ forms then true else b := by
  rw [said?]
  split
  · rfl
  · split <;> rfl

theorem said?_congr {forms forms' : List (Topic × Bool)} (h : ∀ form, form ∈ forms' ↔ form ∈ forms) :
    said? forms' = said? forms := by
  funext t
  simp only [said?, h]

/-- A flag that is mentioned without a value is on, however often it is mentioned. -/
theorem last?_plain (on : Bool) : last? (forms.map plain) t on = if (t, on) ∈ forms then some true else none := by
  induction forms with
  | nil => rfl
  | cons form forms ih =>
      have hplace : (plain form).place? t on = if (t, on) = form then some true else none := by
        rw [place?, plain, position]
        simp only [Prod.ext_iff, eq_comm]
      rw [List.map_cons, last?, ih, hplace]
      simp only [List.mem_cons]
      by_cases hform : (t, on) = form
      · have hlisted : (t, on) = form ∨ (t, on) ∈ forms := .inl hform
        rw [if_pos hform, if_pos hlisted]
        split <;> rfl
      · rw [if_neg hform, Option.or_none]
        simp only [hform, false_or]

theorem turned?_plain : turned? (forms.map plain) t = said? forms t := by
  rw [turned?, last?_plain, last?_plain, said?]
  split <;> rfl

theorem all?_plain : all? (forms.map plain) = said? forms .allWarnings := by
  rw [all?, last?_plain, last?_plain, said?]
  split
  · rfl
  · split <;> rfl

end Mention

namespace Settings

/-- What flags without values leave of the settings. -/
theorem applyFlagSet_plain {f : FlagSet} (h : f.Offers) (s : Settings) (forms : List (Topic × Bool)) :
    s.applyFlagSet (f.parse (forms.map fun form => "-" ++ form.1.flagName form.2)).1 =
      { s with
        warning := fun w => (Mention.said? forms (.warning w)).getD
          (if w = .pedantic then s.warning w else (Mention.said? forms .allWarnings).getD (s.warning w))
        feature := fun x => (Mention.said? forms (.feature x)).getD (s.feature x) } := by
  rw [← Mention.map_text_plain, applyFlagSet_parse h, obeying]
  simp only [Mention.turned?_plain, Mention.all?_plain]

/-- The switches of a settings file and of the command line are resolved by precedence. The file is obeyed to its
end, and the flags are understood. A warning is off if the flag that turns it off is given, else on if the flag
that turns it on is; else, unless it is `pedantic`, the same holds for the flags about all warnings; else it is what
the file says of it, what the file says of all, or what it was. Features follow the same rule without the levels
for all. The order of the tables and the order and number of the flags play no role. -/
theorem settings_by_precedence {s₀ : Settings} {f₀ f₁ f : FlagSet} {more : List Flag}
    (hdefine : s₀.defineFlags f₀ = .ok f₁) (hmore : more.foldlM FlagSet.define f₁ = .ok f)
    (s : Settings) {file : SettingsFile} (hfile : file.WellNamed) (forms : List (Topic × Bool)) :
    let resolved (file : SettingsFile) (forms : List (Topic × Bool)) : Settings :=
      (file.apply s).1.applyFlagSet (f.parse (forms.map fun form => "-" ++ form.1.flagName form.2)).1
    (file.apply s).2 = none ∧
    (f.parse (forms.map fun form => "-" ++ form.1.flagName form.2)).2 = none ∧
    (∀ w, (resolved file forms).warning w =
      if (.warning w, false) ∈ forms then false
      else if (.warning w, true) ∈ forms then true
      else if w ≠ .pedantic ∧ (.allWarnings, false) ∈ forms then false
      else if w ≠ .pedantic ∧ (.allWarnings, true) ∈ forms then true
      else ((file.warnings.lookup w.name).or
        (if w = .pedantic then none else file.warnings.lookup "all")).getD (s.warning w)) ∧
    (∀ x, (resolved file forms).feature x =
      if (.feature x, false) ∈ forms then false
      else if (.feature x, true) ∈ forms then true
      else (file.features.lookup x.name).getD (s.feature x)) ∧
    ∀ ws fs forms', ws.Perm file.warnings → fs.Perm file.features → (∀ form, form ∈ forms' ↔ form ∈ forms) →
      resolved { file with warnings := ws, features := fs } forms' = resolved file forms := by
  intro resolved
  have hoffers := offers_defineFlags hdefine hmore
  have hresolved : ∀ file forms, resolved file forms = _ :=
    fun file forms => applyFlagSet_plain hoffers (file.apply s).1 forms
  refine ⟨?_, ?_, fun w => ?_, fun x => ?_, fun ws fs forms' hws hfs hforms => ?_⟩
  · rw [hfile.apply_eq]
  · rw [← Mention.map_text_plain]
    exact (hoffers.parse _).1
  · have hwarning : (file.apply s).1.warning w = ((file.warnings.lookup w.name).or
        (if w = .pedantic then none else file.warnings.lookup "all")).getD (s.warning w) := by
      rw [hfile.apply_eq]
      rfl
    rw [hresolved]
    dsimp only
    rw [hwarning, Mention.said?_getD, Mention.said?_getD]
    by_cases hw : w = .pedantic
    · simp only [hw, if_true, ne_eq, not_true, false_and, if_false]
    · simp only [hw, if_false, ne_eq, not_false_eq_true, true_and]
  · have hfeature : (file.apply s).1.feature x = (file.features.lookup x.name).getD (s.feature x) := by
      rw [hfile.apply_eq]
      rfl
    rw [hresolved]
    dsimp only
    rw [hfeature, Mention.said?_getD]
  · rw [hresolved, hresolved, hfile.apply_perm hws hfs, Mention.said?_congr hforms]

/-- A table that turns all warnings off but two, and flags that contradict it and each other. -/
theorem settings_by_precedence_contradictory :
    let file : SettingsFile :=
      { warnings := [("shadow", true), ("pedantic", true), ("all", false)], features := [("escapes", false)] }
    let forms : List (Topic × Bool) := [(.warning .extra, false), (.feature .escapes, true),
      (.warning .constCond, true), (.warning .extra, true), (.warning .constCond, true)]
    file.WellNamed ∧
      forms.map (fun form => "-" ++ form.1.flagName form.2) =
        ["-Wno-extra", "-Fescapes", "-Wconst-cond", "-Wextra", "-Wconst-cond"] ∧
      ∃ f, ({} : Settings).defineFlags {} = .ok f ∧
        let s := (file.apply {}).1.applyFlagSet
          (f.parse ["-Wno-extra", "-Fescapes", "-Wconst-cond", "-Wextra", "-Wconst-cond"]).1
        Warning.all.map s.warning = [true, true, false, false, true, false] ∧
          Feature.all.map s.feature = [true, true, true, true] := by
  intro file forms
  obtain ⟨f, hf⟩ := exists_defineFlags
  have hmore : [].foldlM FlagSet.define f = .ok f := rfl
  have hfile : file.WellNamed :=
    { warnings_distinct := by decide
      warnings_known := by
        intro e he
        simp only [file, List.mem_cons, List.not_mem_nil, or_false] at he
        obtain rfl | rfl | rfl := he
        · exact .inr ⟨.shadow, rfl⟩
        · exact .inr ⟨.pedantic, rfl⟩
        · exact .inl rfl
      features_distinct := by decide
      features_known := by
        intro e he
        obtain rfl := List.mem_singleton.mp he
        exact ⟨.escapes, rfl⟩ }
  have htext : forms.map (fun form => "-" ++ form.1.flagName form.2) =
      ["-Wno-extra", "-Fescapes", "-Wconst-cond", "-Wextra", "-Wconst-cond"] := by decide +kernel
  obtain ⟨-, -, hwarning, hfeature, -⟩ := settings_by_precedence hf hmore {} hfile forms
  refine ⟨hfile, htext, f, hf, ?_⟩
  rw [← htext]
  constructor
  · rw [funext hwarning]
    decide +kernel
  · rw [funext hfeature]
    decide +kernel

end Settings

end BlockLang

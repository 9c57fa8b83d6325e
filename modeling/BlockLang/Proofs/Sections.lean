import BlockLang.TestCase
import Mathlib.Data.List.Forall2

/-! Test cases and the sections of a document. A heading that names a test begins a section, which holds the
fenced blocks with a language up to the next such heading. Reading the headings and blocks one after the other
is the same as dividing the document into sections first and reading each section by itself. A section gives a
test case if all its blocks have a language that is known, it has an expectation, and its programs come to one:
programs without text are passed over until there is one with text, and behind that one there is no other. -/

namespace BlockLang.TestCase

open Markdown

/-- A test of a document: its name and the fenced blocks with a language below its heading. -/
structure Section where
  name : String
  fences : List Fence

/-- The fenced blocks with a language in front of the first test of a document, and its tests. -/
def divide : List Landmark → List Fence × List Section
  | [] => ([], [])
  | .heading text :: rest =>
    match nameOf? text with
    | none => divide rest
    | some name => ([], ⟨name, (divide rest).1⟩ :: (divide rest).2)
  | .fence fence :: rest =>
    if fence.language = "" then divide rest else (fence :: (divide rest).1, (divide rest).2)

/-- The blocks that hold a program. -/
def programs (fences : List Fence) : List Fence := fences.filter (·.language = programLanguage)

/-- The expectations that some blocks hold, in order. -/
def expectations (fences : List Fence) : List (Expectation × String) :=
  fences.filterMap fun fence =>
    (Expectation.ofLanguage? fence.language).map fun expectation => (expectation, trimLineEnds fence.content)

/-- Each block holds a program or an expectation. -/
def Known (fences : List Fence) : Prop :=
  ∀ fence ∈ fences,
    fence.language = programLanguage ∨ ∃ expectation : Expectation, expectation.language = fence.language

/-- A test with one program gives a test case. -/
def Section.Describes (s : Section) (test : TestCase) : Prop :=
  Known s.fences ∧ expectations s.fences ≠ [] ∧
    ∃ program, programs s.fences = [program] ∧
      test = ⟨s.name, program.line, program.content, expectations s.fences⟩

/-- A test gives a test case with its last program, which has some text while those before have none. -/
def Section.Yields (s : Section) (test : TestCase) : Prop :=
  Known s.fences ∧ expectations s.fences ≠ [] ∧
    ∃ blank program, programs s.fences = blank ++ [program] ∧ (∀ p ∈ blank, p.content = "") ∧
      program.content ≠ "" ∧ test = ⟨s.name, program.line, program.content, expectations s.fences⟩

variable {text name : String} {fence : Fence} {fences : List Fence} {test full : TestCase}

theorem after?_eq_some_iff {word cs rest : List Char} : after? word cs = some rest ↔ cs = word ++ rest := by
  induction word generalizing cs with
  | nil => simp [after?]
  | cons w word ih =>
      cases cs with
      | nil => simp [after?]
      | cons c cs =>
          rw [after?]
          by_cases hc : w = c
          · simp [hc, ih]
          · simp [hc, Ne.symm hc]

/-- A heading names a test by what stands behind `Test: `. -/
theorem nameOf?_eq_some_iff : nameOf? text = some name ↔ text = "Test: " ++ name := by
  rw [nameOf?, Option.map_eq_some_iff, ← String.toList_inj, String.toList_append]
  constructor
  · rintro ⟨rest, hrest, rfl⟩
    simpa using after?_eq_some_iff.mp hrest
  · intro htext
    exact ⟨name.toList, after?_eq_some_iff.mpr htext, String.ofList_toList⟩

theorem ofLanguage?_eq_some_iff {language : String} {expectation : Expectation} :
    Expectation.ofLanguage? language = some expectation ↔ expectation.language = language := by
  constructor
  · intro h
    simpa using List.find?_some h
  · rintro rfl
    cases expectation <;> simp [Expectation.ofLanguage?, Expectation.all, Expectation.language]

theorem language_ne_program (expectation : Expectation) : expectation.language ≠ programLanguage := by
  cases expectation <;> simp [Expectation.language, programLanguage]

theorem ofLanguage?_program : Expectation.ofLanguage? programLanguage = none := by
  simp [Expectation.ofLanguage?, Expectation.all, Expectation.language, programLanguage]

theorem add_program (h : fence.language = programLanguage) :
    test.add fence = if test.input = "" then .ok { test with line := fence.line, input := fence.content }
      else .error (.secondProgram fence.line test.name) := by
  simp only [add, h, if_true, String.isEmpty_iff]

theorem add_expectation {expectation : Expectation} (h : expectation.language = fence.language) :
    test.add fence =
      .ok { test with assertions := test.assertions ++ [(expectation, trimLineEnds fence.content)] } := by
  have hne : fence.language ≠ programLanguage := h ▸ language_ne_program expectation
  simp only [add, if_neg hne, ofLanguage?_eq_some_iff.mpr h]

theorem add_unknown (hprogram : fence.language ≠ programLanguage)
    (h : ∀ expectation : Expectation, expectation.language ≠ fence.language) :
    test.add fence = .error (.unknownLanguage fence.line fence.language test.name) := by
  have hnone : Expectation.ofLanguage? fence.language = none := by
    rw [Option.eq_none_iff_forall_ne_some]
    intro expectation hsome
    exact h expectation (ofLanguage?_eq_some_iff.mp hsome)
  simp only [add, if_neg hprogram, hnone]

/-- The place and the text of the program after further programs: one with text admits no other. -/
def settle : Nat × String → List Fence → Option (Nat × String)
  | place, [] => some place
  | place, program :: rest => if place.2 = "" then settle (program.line, program.content) rest else none

theorem known_cons : Known (fence :: fences) ↔
    (fence.language = programLanguage ∨ ∃ expectation : Expectation, expectation.language = fence.language) ∧
      Known fences :=
  List.forall_mem_cons

/-- What some blocks make of a test: its name stays, its program is settled, and expectations are added. -/
theorem foldlM_add_eq_ok_iff : fences.foldlM add test = .ok full ↔ Known fences ∧
    settle (test.line, test.input) (programs fences) = some (full.line, full.input) ∧
    full.name = test.name ∧ full.assertions = test.assertions ++ expectations fences := by
  induction fences generalizing test with
  | nil =>
      cases test
      cases full
      simp [Known, settle, programs, expectations, pure, Except.pure]
      grind
  | cons fence fences ih =>
      rw [List.foldlM_cons, known_cons]
      by_cases hprogram : fence.language = programLanguage
      · have hprograms : programs (fence :: fences) = fence :: programs fences := by simp [programs, hprogram]
        have hexpectations : expectations (fence :: fences) = expectations fences := by
          simp [expectations, hprogram, ofLanguage?_program]
        rw [add_program hprogram, hprograms, hexpectations, settle]
        by_cases hinput : test.input = ""
        · rw [if_pos hinput, if_pos hinput]
          exact ih.trans (by simp [hprogram])
        · rw [if_neg hinput, if_neg hinput]
          simp [bind, Except.bind]
      · by_cases hknown : ∃ expectation : Expectation, expectation.language = fence.language
        · obtain ⟨expectation, h⟩ := hknown
          have hprograms : programs (fence :: fences) = programs fences := by simp [programs, hprogram]
          have hexpectations : expectations (fence :: fences) =
              (expectation, trimLineEnds fence.content) :: expectations fences := by
            simp [expectations, ofLanguage?_eq_some_iff.mpr h]
          rw [add_expectation h, hprograms, hexpectations]
          refine ih.trans ?_
          simp only [hprogram, false_or, List.append_assoc, List.singleton_append]
          exact ⟨fun ⟨hrest, hmore⟩ => ⟨⟨⟨expectation, h⟩, hrest⟩, hmore⟩, fun ⟨⟨_, hrest⟩, hmore⟩ => ⟨hrest, hmore⟩⟩
        · rw [add_unknown hprogram (not_exists.mp hknown)]
          simp [bind, Except.bind, hprogram, hknown]

/-- Programs without text give way to the next one. -/
theorem settle_eq_some_iff {line line' : Nat} {input : String} (hinput : input ≠ "") :
    settle (line, "") fences = some (line', input) ↔ ∃ blank program, fences = blank ++ [program] ∧
      (∀ p ∈ blank, p.content = "") ∧ program.line = line' ∧ program.content = input := by
  induction fences generalizing line with
  | nil => simp [settle, Ne.symm hinput]
  | cons fence fences ih =>
      rw [settle, if_pos rfl]
      by_cases hcontent : fence.content = ""
      · rw [hcontent, ih]
        constructor
        · rintro ⟨blank, program, rfl, hblank, hprogram⟩
          refine ⟨fence :: blank, program, rfl, ?_, hprogram⟩
          exact List.forall_mem_cons.mpr ⟨hcontent, hblank⟩
        · rintro ⟨blank, program, hfences, hblank, hline, hprogram⟩
          cases blank with
          | nil =>
              obtain ⟨rfl, -⟩ := List.cons.inj hfences
              exact absurd (hprogram.symm.trans hcontent) hinput
          | cons p blank =>
              obtain ⟨rfl, rfl⟩ := List.cons.inj hfences
              exact ⟨blank, program, rfl, (List.forall_mem_cons.mp hblank).2, hline, hprogram⟩
      · cases fences with
        | nil =>
            rw [settle]
            constructor
            · intro h
              obtain ⟨hline, hcontent⟩ := Prod.mk.inj (Option.some.inj h)
              exact ⟨[], fence, rfl, List.forall_mem_nil _, hline, hcontent⟩
            · rintro ⟨blank, program, hfences, -, rfl, rfl⟩
              cases blank with
              | nil =>
                  obtain ⟨rfl, -⟩ := List.cons.inj hfences
                  rfl
              | cons p blank => simp at hfences
        | cons second rest =>
            rw [settle, if_neg hcontent]
            constructor
            · intro h
              cases h
            · rintro ⟨blank, program, hfences, hblank, -⟩
              cases blank with
              | nil => cases hfences
              | cons p blank =>
                  obtain ⟨rfl, -⟩ := List.cons.inj hfences
                  exact absurd (hblank _ List.mem_cons_self) hcontent

theorem finish_eq_ok_iff : test.finish = .ok full ↔ test.input ≠ "" ∧ test.assertions ≠ [] ∧ full = test := by
  rw [finish, eq_comm (a := full)]
  by_cases hinput : test.input = ""
  · simp [hinput]
  · by_cases hassertions : test.assertions = []
    · simp [hinput, hassertions]
    · simp [hinput, hassertions]

/-- The test case of a section, read by itself. -/
def Section.extract (s : Section) : Except CaseError TestCase := s.fences.foldlM add (begin s.name) >>= finish

/-- A section is extracted just as the specification says. -/
theorem Section.extract_eq_ok_iff {s : Section} : s.extract = .ok test ↔ s.Yields test := by
  have hbind : s.extract = .ok test ↔ ∃ full, s.fences.foldlM add (begin s.name) = .ok full ∧
      full.finish = .ok test := by
    rw [extract]
    cases s.fences.foldlM add (begin s.name) <;> simp [bind, Except.bind]
  rw [hbind]
  simp only [foldlM_add_eq_ok_iff, finish_eq_ok_iff]
  constructor
  · rintro ⟨⟨name, line, input, assertions⟩, ⟨hknown, hsettle, rfl, rfl⟩, hinput, hsome, rfl⟩
    obtain ⟨blank, program, hprograms, hblank, rfl, rfl⟩ := (settle_eq_some_iff hinput).mp hsettle
    exact ⟨hknown, hsome, blank, program, hprograms, hblank, hinput, rfl⟩
  · rintro ⟨hknown, hsome, blank, program, hprograms, hblank, hcontent, htest⟩
    refine ⟨⟨s.name, program.line, program.content, expectations s.fences⟩, ⟨hknown, ?_, rfl, rfl⟩, hcontent,
      hsome, htest⟩
    exact (settle_eq_some_iff hcontent).mpr ⟨blank, program, hprograms, hblank, rfl, rfl⟩

/-- Within a section, the blocks up to the next heading belong to its test. -/
theorem collect_some (test : TestCase) (ls : List Landmark) : collect (some test) ls = do
    let full ← (divide ls).1.foldlM add test >>= finish
    return full :: (← (divide ls).2.mapM Section.extract) := by
  induction ls generalizing test with
  | nil =>
      rw [collect]
      simp [divide]
  | cons l ls ih =>
      cases l with
      | heading text =>
          rw [collect, divide]
          cases nameOf? text with
          | none => exact ih test
          | some name =>
              simp [ih, Section.extract]
      | fence fence =>
          rw [collect, divide]
          by_cases hlanguage : fence.language = ""
          · simp [hlanguage, ih]
          · simp [hlanguage, ih]

/-- In front of the first heading there may be no block. -/
theorem collect_none (ls : List Landmark) : collect none ls =
    match (divide ls).1 with
    | [] => (divide ls).2.mapM Section.extract
    | fence :: _ => .error (.outside fence.line fence.language) := by
  induction ls with
  | nil => rfl
  | cons l ls ih =>
      cases l with
      | heading text =>
          rw [collect, divide]
          cases nameOf? text with
          | none => exact ih
          | some name => simp [collect_some, Section.extract]
      | fence fence =>
          rw [collect, divide]
          by_cases hlanguage : fence.language = ""
          · simp [hlanguage, ih]
          · simp [hlanguage]

theorem mapM_extract_eq_ok_iff {sections : List Section} {tests : List TestCase} :
    sections.mapM Section.extract = .ok tests ↔ List.Forall₂ Section.Yields sections tests := by
  induction sections generalizing tests with
  | nil => cases tests <;> simp [pure, Except.pure]
  | cons s sections ih =>
      rw [List.mapM_cons]
      cases tests with
      | nil =>
          cases s.extract with
          | error e => simp [bind, Except.bind]
          | ok test => cases sections.mapM Section.extract <;> simp [bind, Except.bind, pure, Except.pure]
      | cons test tests =>
          rw [List.forall₂_cons, ← ih, ← Section.extract_eq_ok_iff]
          cases s.extract with
          | error e => simp [bind, Except.bind]
          | ok test => cases sections.mapM Section.extract <;> simp [bind, Except.bind, pure, Except.pure]

theorem collect_eq_ok_iff {ls : List Landmark} {tests : List TestCase} : collect none ls = .ok tests ↔
    (divide ls).1 = [] ∧ List.Forall₂ Section.Yields (divide ls).2 tests := by
  rw [collect_none]
  cases (divide ls).1 with
  | nil => simp [mapM_extract_eq_ok_iff]
  | cons fence fences => simp

/-- If every program has some text then a section gives a test case exactly if it has one program. -/
theorem Section.yields_iff_describes {s : Section} (h : ∀ p ∈ programs s.fences, p.content ≠ "") :
    s.Yields test ↔ s.Describes test := by
  rw [Yields, Describes]
  refine and_congr_right fun _ => and_congr_right fun _ => ⟨?_, ?_⟩
  · rintro ⟨blank, program, hprograms, hblank, -, htest⟩
    have hnone : blank = [] := by
      rw [List.eq_nil_iff_forall_not_mem]
      intro p hp
      refine h p ?_ (hblank p hp)
      rw [hprograms]
      exact List.mem_append_left _ hp
    subst hnone
    exact ⟨program, hprograms, htest⟩
  · rintro ⟨program, hprograms, htest⟩
    have hcontent : program.content ≠ "" := h program (by simp [hprograms])
    exact ⟨[], program, hprograms, List.forall_mem_nil _, hcontent, htest⟩

theorem forall₂_yields_iff {sections : List Section} {tests : List TestCase}
    (h : ∀ s ∈ sections, ∀ p ∈ programs s.fences, p.content ≠ "") :
    List.Forall₂ Section.Yields sections tests ↔ List.Forall₂ Section.Describes sections tests := by
  have hboth : ∀ {R : Section → TestCase → Prop}, List.Forall₂ R sections tests ↔
      List.Forall₂ (fun s t => (∀ p ∈ programs s.fences, p.content ≠ "") ∧ R s t) sections tests := by
    intro R
    rw [List.forall₂_and_left, and_iff_right h]
  rw [hboth, hboth (R := Section.Describes)]
  constructor
  · exact List.Forall₂.imp fun s t ⟨hs, ht⟩ => ⟨hs, (Section.yields_iff_describes hs).mp ht⟩
  · exact List.Forall₂.imp fun s t ⟨hs, ht⟩ => ⟨hs, (Section.yields_iff_describes hs).mpr ht⟩

/-- The test cases of a document are those of its sections, in order. There are some exactly if no block with a
language stands in front of the first section, and each section has only blocks with a language that is known, an
expectation, and programs of which the last has some text and the others have none. If every program has some
text, this means that each section has exactly one program. -/
theorem sections_extracted (ls : List Landmark) (tests : List TestCase) :
    (collect none ls = .ok tests ↔ (divide ls).1 = [] ∧ List.Forall₂ Section.Yields (divide ls).2 tests) ∧
    ((∀ s ∈ (divide ls).2, ∀ p ∈ programs s.fences, p.content ≠ "") →
      (collect none ls = .ok tests ↔ (divide ls).1 = [] ∧ List.Forall₂ Section.Describes (divide ls).2 tests)) := by
  refine ⟨collect_eq_ok_iff, fun hcontent => ?_⟩
  rw [collect_eq_ok_iff, forall₂_yields_iff hcontent]

/-- Two tests with a block without a language in front of them and a heading of no test between them. -/
theorem sections_extracted_two :
    let ls : List Landmark := [.fence ⟨"", 1, "x"⟩, .heading "Test: a", .fence ⟨"output", 4, "1\n"⟩,
      .fence ⟨"swindle", 8, "writeln 1\n"⟩, .heading "Notes", .fence ⟨"ast", 14, "t"⟩, .heading "Test: b",
      .fence ⟨"swindle", 20, "1 +"⟩, .fence ⟨"compile-error", 24, "e"⟩]
    let tests : List TestCase := [⟨"a", 8, "writeln 1\n", [(.output, "1"), (.tree, "t")]⟩,
      ⟨"b", 20, "1 +", [(.compileError, "e")]⟩]
    (∀ s ∈ (divide ls).2, ∀ p ∈ programs s.fences, p.content ≠ "") ∧ (divide ls).1 = [] ∧
      List.Forall₂ Section.Describes (divide ls).2 tests ∧ collect none ls = .ok tests := by
  intro ls tests
  have hdivide : divide ls = ([], [⟨"a", [⟨"output", 4, "1\n"⟩, ⟨"swindle", 8, "writeln 1\n"⟩, ⟨"ast", 14, "t"⟩]⟩,
      ⟨"b", [⟨"swindle", 20, "1 +"⟩, ⟨"compile-error", 24, "e"⟩]⟩]) := rfl
  have hcollect : collect none ls = .ok tests := rfl
  have hcontent : ∀ s ∈ (divide ls).2, ∀ p ∈ programs s.fences, p.content ≠ "" := by
    rw [hdivide]
    simp [programs, programLanguage]
  obtain ⟨hopening, hsections⟩ := ((sections_extracted ls tests).2 hcontent).mp hcollect
  exact ⟨hcontent, hopening, hsections, hcollect⟩

/-- A test with one program and one expectation is refused as a test without a program if its program has no
text. -/
theorem blank_program_not_seen :
    let source := "# Test: a\n\n```swindle\n```\n\n```output\n```\n"
    (divide (landmarks source)).1 = [] ∧
      List.Forall₂ Section.Describes (divide (landmarks source)).2 [⟨"a", 1, "", [(.output, "")]⟩] ∧
      ofDocument source = .error (.noProgram "a") := by
  have hlandmarks : landmarks "# Test: a\n\n```swindle\n```\n\n```output\n```\n" =
      [.heading "Test: a", .fence ⟨"swindle", 1, ""⟩, .fence ⟨"output", 1, ""⟩] := by rfl
  intro source
  simp only [source, ofDocument, hlandmarks]
  refine ⟨rfl, .cons ⟨?_, ?_, ⟨"swindle", 1, ""⟩, rfl, rfl⟩ .nil, rfl⟩
  · exact List.forall_mem_cons.mpr ⟨.inl rfl, List.forall_mem_singleton.mpr (.inr ⟨.output, rfl⟩)⟩
  · exact List.cons_ne_nil _ _

end BlockLang.TestCase

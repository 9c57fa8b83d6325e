import BlockLang.Proofs.Containment
import BlockLang.Proofs.Turns
import Mathlib.Data.List.Perm.Subperm
import Mathlib.Data.List.Nodup

/-! Tests that share a disk. The built form of a program is named after the last part of its path, so a
test keeps clear of all tests of files with other names, in every order of turns. Where no two files
have one name, the results are therefore those of a single worker. Two files of one name share one built
form, and a worker may then run what another worker has built. -/

namespace BlockLang

open BlockLang.Path

namespace Suite

/-- No other file has the name of this one. -/
def Sole (files : List String) (file : String) : Prop :=
  ∀ other ∈ files, base other = base file → other = file

/-- Files that are about to be tested with a program that keeps to itself. -/
structure Arranged (rig : Rig) (d : Disk) (files : List String) : Prop where
  nodup : files.Nodup
  stored : ∀ file ∈ files, ∃ place, Stored d file place
  fresh : rig.IsFresh d
  contained : rig.Contained d files

end Suite

open Suite

variable {rig : Rig} {skipped files : List String} {d d' : Disk} {file : String}

namespace Job

/-- What becomes of a test that has the disk to itself. -/
def alone (rig : Rig) (d : Disk) (file : String) : Job :=
  let first := step rig d (waiting file)
  let second := first.1.step rig first.2.1
  (second.1.step rig second.2.1).1

/-- A test that is where it would be if it had the disk to itself. What it has built is still there. -/
inductive Stage (rig : Rig) (d d' : Disk) : Job → Prop
  | waiting (file : String) : Stage rig d d' (waiting file)
  | ran {file : String} {golden : Golden} {run : Execution} {diff : String}
      (hbegin : (begin rig d file).1 = ran file golden run diff) : Stage rig d d' (ran file golden run diff)
  | built {file : String} {golden : Golden} {run : Execution} {diff : String}
      (hbegin : (begin rig d file).1 = .ran file golden run diff)
      (hbuild : (build rig d file golden run diff).1 = built file golden run diff)
      (hcontent : d'.read (rig.compiledPath file) = (rig.build d file).2.read (rig.compiledPath file)) :
      Stage rig d d' (built file golden run diff)
  | done {result : TestResult} (h : alone rig d result.file = done result) : Stage rig d d' (done result)

variable {golden : Golden} {run : Execution} {diff : String} {result : TestResult} {job : Job}

/-- A test depends on the disk only where its own built form lies. -/
theorem Stage.congr {d'' : Disk} (h : Stage rig d d' job)
    (hcontent : d''.read (rig.compiledPath job.file) = d'.read (rig.compiledPath job.file)) :
    Stage rig d d'' job := by
  cases h with
  | waiting file => exact .waiting file
  | ran hbegin => exact .ran hbegin
  | built hbegin hbuild hown => exact .built hbegin hbuild (hcontent.trans hown)
  | done h => exact .done h

theorem build_snd (rig : Rig) (d : Disk) (file : String) (golden : Golden) (run : Execution)
    (diff : String) :
    (build rig d file golden run diff).2 = d ∨ (build rig d file golden run diff).2 = (rig.build d file).2 := by
  rw [build]
  split
  · exact .inl rfl
  · dsimp only
    split
    · exact .inr rfl
    · exact .inr rfl

theorem of_built (h : (build rig d file golden run diff).1 = built file golden run diff) :
    (rig.build d file).1.exitCode = 0 ∧ (build rig d file golden run diff).2 = (rig.build d file).2 := by
  rw [build] at h ⊢
  dsimp only at h ⊢
  split_ifs at h ⊢ with hcode hbuild
  exact ⟨not_not.1 (not_or.1 hbuild).1, rfl⟩

theorem step_ran (rig : Rig) (d : Disk) (file : String) (golden : Golden) (run : Execution) (diff : String) :
    step rig d (ran file golden run diff)
      = ((build rig d file golden run diff).1, (build rig d file golden run diff).2, []) := rfl

theorem exec_fst (rig : Rig) (d : Disk) (file : String) (golden : Golden) (run : Execution) (diff : String) :
    (exec rig d file golden run diff).1
      = done (judge file golden run (some (rig.exec d file).1)
          (diff ++ Comparison.describe rig.ignored rig.timeout "exec" golden.run (rig.exec d file).1)) := rfl

theorem alone_of_begin (h : (begin rig d file).1 = done result) : alone rig d file = done result := by
  simp only [alone, step, h]

theorem alone_of_build (hdisk : (begin rig d file).2.1 = d)
    (hbegin : (begin rig d file).1 = ran file golden run diff)
    (hbuild : (build rig d file golden run diff).1 = done result) : alone rig d file = done result := by
  simp only [alone, step, hdisk, hbegin, hbuild]

theorem alone_of_built (hdisk : (begin rig d file).2.1 = d)
    (hbegin : (begin rig d file).1 = ran file golden run diff)
    (hbuild : (build rig d file golden run diff).1 = built file golden run diff) :
    alone rig d file = (exec rig (rig.build d file).2 file golden run diff).1 := by
  simp only [alone, step, hdisk, hbegin, hbuild, (of_built hbuild).2]

variable (hfiles : Arranged rig d files) (hbeside : rig.Beside d d')
include hfiles hbeside

/-- A test begins alike on any disk that differs in built forms only, and leaves it as it is. -/
theorem begin_eq (hmem : file ∈ files) :
    begin rig d' file = ((begin rig d file).1, d', (begin rig d file).2.2) := by
  obtain ⟨place, hplace⟩ := hfiles.stored file hmem
  have hnote : ∀ golden, staleNote d' file golden = staleNote d file golden := fun golden => by
    rw [staleNote, staleNote, hbeside.read_stored hfiles.fresh hplace]
  unfold begin
  rw [hbeside.read_golden hfiles.fresh hplace]
  split
  · rfl
  · split
    · rfl
    · dsimp only
      rw [hfiles.contained.run hbeside hmem, hnote]

theorem begin_disk (hmem : file ∈ files) : (begin rig d' file).2.1 = d' := by
  rw [begin_eq hfiles hbeside hmem]

theorem build_fst (hmem : file ∈ files) (golden : Golden) (run : Execution) (diff : String) :
    (build rig d' file golden run diff).1 = (build rig d file golden run diff).1 := by
  rw [build, build]
  dsimp only
  rw [hfiles.contained.build hbeside hmem]
  split_ifs <;> rfl

/-- A step of any test changes at most the built forms of that name. -/
theorem step_beside (hmem : job.file ∈ files) :
    rig.Beside d (job.step rig d').2.1 ∧ ∀ other ∈ files, base other ≠ base job.file →
      (job.step rig d').2.1.read (rig.compiledPath other) = d'.read (rig.compiledPath other) := by
  cases job with
  | waiting file =>
      replace hmem : file ∈ files := hmem
      rw [show step rig d' (waiting file) = begin rig d' file from rfl, begin_disk hfiles hbeside hmem]
      exact ⟨hbeside, fun _ _ _ => rfl⟩
  | ran file golden run diff =>
      rw [step_ran]
      obtain hdisk | hdisk := build_snd rig d' file golden run diff
      · rw [hdisk]
        exact ⟨hbeside, fun _ _ _ => rfl⟩
      · rw [hdisk]
        exact ⟨hfiles.contained.build_beside hbeside hmem,
          fun other hother hbase => hfiles.contained.build_other hbeside hmem hother hbase⟩
  | built file golden run diff =>
      have hdisk : (step rig d' (built file golden run diff)).2.1 = d' :=
        hfiles.contained.exec_disk hbeside hmem
      rw [hdisk]
      exact ⟨hbeside, fun _ _ _ => rfl⟩
  | done result => exact ⟨hbeside, fun _ _ _ => rfl⟩

/-- A test that is where it would be by itself goes on like that. -/
theorem Stage.step (hmem : job.file ∈ files) (h : Stage rig d d' job) :
    Stage rig d (job.step rig d').2.1 (job.step rig d').1 := by
  have hself := Rig.Beside.refl hfiles.fresh
  cases h with
  | waiting file =>
      replace hmem : file ∈ files := hmem
      rw [show Job.step rig d' (.waiting file) = begin rig d' file from rfl, begin_eq hfiles hbeside hmem]
      obtain ⟨golden, run, diff, hran⟩ | ⟨result, hdone, rfl⟩ := begin_cases rig d file
      · rw [hran]
        exact .ran hran
      · rw [hdone]
        exact .done (alone_of_begin hdone)
  | @ran file golden run diff hbegin =>
      replace hmem : file ∈ files := hmem
      have hdisk := begin_disk hfiles hself hmem
      have hfst := build_fst hfiles hbeside hmem golden run diff
      rw [step_ran]
      obtain hbuild | ⟨result, hdone, hfile⟩ := build_cases rig d file golden run diff
      · have hbuild' := hfst.trans hbuild
        rw [hbuild', (of_built hbuild').2]
        exact .built hbegin hbuild
          (hfiles.contained.build_content hbeside hmem (of_built hbuild).1)
      · rw [hfst, hdone]
        refine .done ?_
        rw [hfile]
        exact alone_of_build hdisk hbegin hdone
  | @built file golden run diff hbegin hbuild hcontent =>
      replace hmem : file ∈ files := hmem
      have hexec : (rig.exec d' file).1 = (rig.exec (rig.build d file).2 file).1 :=
        hfiles.contained.exec hbeside (hfiles.contained.build_beside hself hmem) hmem hcontent
      have hstep : (Job.step rig d' (.built file golden run diff)).1
          = (exec rig d' file golden run diff).1 := rfl
      rw [hstep, exec_fst]
      refine .done ?_
      rw [judge_file, alone_of_built (begin_disk hfiles hself hmem) hbegin hbuild, exec_fst, hexec]
  | done h => exact .done h

end Job

/-! ### Tests side by side -/

namespace Pool

/-- A feeder that has looked at some files on a disk that nobody else uses. -/
def fed (skipped : List String) (d : Disk) (front : List String) : Pool :=
  front.foldl (offer skipped) (start d 0 [])

/-- Where the files and results of a pool come from. Its feeder has looked at the files in `front`, and
the workers have added the results in `tested`; those of files with a name of their own are the results
of tests that have the disk to themselves. -/
structure Ledger (rig : Rig) (skipped : List String) (d : Disk) (files : List String) (p : Pool)
    (front : List String) (tested : List TestResult) : Prop where
  incoming : files = front ++ p.incoming
  seen : p.seen = (fed skipped d front).seen
  results : p.results.Perm ((fed skipped d front).results ++ tested)
  queue : (p.queue ++ (busy p.workers ++ tested.map (·.file))).Perm (fed skipped d front).queue
  alone : ∀ result ∈ tested, Sole files result.file → Job.alone rig d result.file = .done result

/-- What every turn keeps. -/
structure Tracks (rig : Rig) (skipped : List String) (d : Disk) (files : List String) (p : Pool) : Prop where
  held : p.held.Perm files
  disk : rig.Beside d p.disk
  stage : ∀ job, some job ∈ p.workers → Sole files job.file → job.Stage rig d p.disk
  ledger : ∃ front tested, Ledger rig skipped d files p front tested

variable {p p' q : Pool} {front rest : List String} {tested : List TestResult}
  {before after : List (Option Job)} {job other : Job}

theorem offer_of_error {result : TestResult}
    (h : inspect skipped p.seen file (p.disk.read file) = .error result) :
    offer skipped p file = p.add result := by
  rw [offer, h]

theorem offer_of_ok {hash : String} (h : inspect skipped p.seen file (p.disk.read file) = .ok hash) :
    offer skipped p file = { p with queue := p.queue ++ [file], seen := (hash, file) :: p.seen } := by
  rw [offer, h]

theorem fed_concat (skipped : List String) (d : Disk) (front : List String) (file : String) :
    fed skipped d (front ++ [file]) = offer skipped (fed skipped d front) file := by
  rw [fed, fed, List.foldl_append, List.foldl_cons, List.foldl_nil]

theorem foldl_offer_disk (skipped front : List String) (p : Pool) :
    (front.foldl (offer skipped) p).disk = p.disk := by
  induction front generalizing p with
  | nil => rfl
  | cons file front ih =>
      rw [List.foldl_cons, ih]
      obtain ⟨result, -, hoffer⟩ | ⟨hash, hoffer⟩ := offer_cases skipped p file
      · rw [hoffer, add]
      · rw [hoffer]

/-- The feeder of a pool does what it would do by itself, as the files are what they were. -/
theorem Ledger.feed (h : Ledger rig skipped d files p front tested) (hincoming : p.incoming = file :: rest)
    (hread : p.disk.read file = d.read file) :
    Ledger rig skipped d files (offer skipped { p with incoming := rest } file) (front ++ [file]) tested := by
  have hfront : files = front ++ [file] ++ rest := by
    rw [h.incoming, hincoming, List.append_assoc]
    rfl
  have hsame : inspect skipped p.seen file (p.disk.read file)
      = inspect skipped (fed skipped d front).seen file ((fed skipped d front).disk.read file) := by
    rw [h.seen, show (fed skipped d front).disk = d from foldl_offer_disk _ _ _, hread]
  cases hinspect : inspect skipped p.seen file (p.disk.read file) with
  | error result =>
      have hfed := (fed_concat skipped d front file).trans (offer_of_error (hsame ▸ hinspect))
      have hoffer : offer skipped { p with incoming := rest } file = { p with incoming := rest }.add result :=
        offer_of_error hinspect
      rw [hoffer]
      refine ⟨hfront, ?_, ?_, ?_, h.alone⟩
      · rw [hfed]
        exact h.seen
      · rw [hfed]
        have := h.results
        simp only [Pool.add]
        grind
      · rw [hfed]
        exact h.queue
  | ok hash =>
      have hfed := (fed_concat skipped d front file).trans (offer_of_ok (hsame ▸ hinspect))
      have hoffer : offer skipped { p with incoming := rest } file
          = { p with incoming := rest, queue := p.queue ++ [file], seen := (hash, file) :: p.seen } :=
        offer_of_ok hinspect
      rw [hoffer]
      refine ⟨hfront, ?_, ?_, ?_, h.alone⟩
      · rw [hfed]
        exact congrArg (List.cons (hash, file)) h.seen
      · rw [hfed]
        exact h.results
      · rw [hfed]
        have := h.queue
        grind

/-- A worker that takes a file or goes on with its test hands nothing in. -/
theorem Ledger.moved (h : Ledger rig skipped d files p front tested) (hincoming : p'.incoming = p.incoming)
    (hseen : p'.seen = p.seen) (hresults : p'.results = p.results)
    (hqueue : (p'.queue ++ busy p'.workers).Perm (p.queue ++ busy p.workers)) :
    Ledger rig skipped d files p' front tested := by
  refine ⟨hincoming ▸ h.incoming, hseen ▸ h.seen, hresults ▸ h.results, ?_, h.alone⟩
  have hall := (hqueue.append_right (tested.map (·.file))).trans (List.append_assoc _ _ _ ▸ h.queue)
  rwa [List.append_assoc] at hall

/-- A worker that ends its test hands in one result. -/
theorem Ledger.finished {result : TestResult} (h : Ledger rig skipped d files p front tested)
    (hincoming : p'.incoming = p.incoming) (hseen : p'.seen = p.seen)
    (hresults : p'.results = p.results ++ [result]) (hqueue : p'.queue = p.queue)
    (hbusy : (busy p'.workers ++ [result.file]).Perm (busy p.workers))
    (halone : Sole files result.file → Job.alone rig d result.file = .done result) :
    Ledger rig skipped d files p' front (tested ++ [result]) := by
  refine ⟨hincoming ▸ h.incoming, hseen ▸ h.seen, ?_, ?_, fun r hr hsole => ?_⟩
  · rw [hresults, ← List.append_assoc]
    exact h.results.append_right _
  · have hall := h.queue
    rw [hqueue, List.map_append, List.map_cons, List.map_nil]
    grind
  · obtain hr | hr := List.mem_append.1 hr
    · exact h.alone r hr hsole
    · obtain rfl := List.mem_singleton.1 hr
      exact halone hsole

theorem mem_workers {o : Option Job} (h : some other ∈ before ++ o :: after) :
    o = some other ∨ some other ∈ before ++ after := by
  grind

theorem file_mem (h : p.held.Perm files) (hjob : some job ∈ p.workers) : job.file ∈ files := by
  have hbusy : job.file ∈ busy p.workers := List.mem_filterMap.2 ⟨some job, hjob, rfl⟩
  refine h.mem_iff.1 ?_
  rw [Pool.held]
  simp only [List.mem_append]
  exact .inr (.inr (.inl hbusy))

/-- Two workers never have the same file. -/
theorem file_ne (hfiles : files.Nodup) (h : p.held.Perm files)
    (hworkers : p.workers = before ++ some job :: after) (hother : some other ∈ before ++ after) :
    other.file ≠ job.file := by
  have hnodup := h.nodup_iff.2 hfiles
  rw [Pool.held, hworkers, busy_some] at hnodup
  have hmem : other.file ∈ busy before ++ busy after := by
    rw [← busy_append]
    exact List.mem_filterMap.2 ⟨some other, hother, rfl⟩
  grind

/-- A step of one test leaves every test of a file with another name where it is. -/
theorem Tracks.stage_step (h : Tracks rig skipped d files p) (hfiles : Arranged rig d files)
    (hworkers : p.workers = before ++ some job :: after) (hother : some other ∈ before ++ after)
    (hsole : Sole files other.file) : other.Stage rig d (job.step rig p.disk).2.1 := by
  have hjob : job.file ∈ files := file_mem h.held (by simp [hworkers])
  have hmem : some other ∈ p.workers := by
    rw [hworkers]
    grind
  have hbase : base other.file ≠ base job.file := fun hbase =>
    file_ne hfiles.nodup h.held hworkers hother (hsole job.file hjob hbase.symm).symm
  exact (h.stage other hmem hsole).congr
    ((Job.step_beside hfiles h.disk hjob).2 other.file (file_mem h.held hmem) hbase)

/-- One advance keeps every job where it would be by itself, so a job that ends has ended as it would have ended.
-/
theorem Advance.tracks (hfiles : Arranged rig d files) (h : Tracks rig skipped d files p)
    (hadvance : Advance rig p p') : Tracks rig skipped d files p' := by
  obtain ⟨front, tested, hledger⟩ := h.ledger
  have hheld := hadvance.held.trans h.held
  cases hadvance with
  | take before after file rest hworkers hqueue =>
      refine ⟨hheld, h.disk, fun other hother hsole => ?_, front, tested, hledger.moved rfl rfl rfl ?_⟩
      · obtain hnew | hold := mem_workers hother
        · obtain rfl := Option.some.inj hnew
          exact .waiting file
        · refine h.stage other ?_ hsole
          rw [hworkers]
          grind
      · rw [hworkers, hqueue, busy_idle, busy_some, Job.file]
        grind
  | step before after job hworkers hopen =>
      have hjob : some job ∈ p.workers := by simp [hworkers]
      have hmem := file_mem h.held hjob
      have hfile := (Job.step_open hopen).1
      refine ⟨hheld, (Job.step_beside hfiles h.disk hmem).1, fun other hother hsole => ?_, front, tested,
        hledger.moved rfl rfl rfl ?_⟩
      · obtain hnew | hold := mem_workers hother
        · obtain rfl := Option.some.inj hnew
          rw [hfile] at hsole
          exact (h.stage job hjob hsole).step hfiles h.disk hmem
        · exact h.stage_step hfiles hworkers hold hsole
      · simp only [hworkers, busy_some, hfile]
        exact .refl _
  | finish before after job result hworkers hdone =>
      have hjob : some job ∈ p.workers := by simp [hworkers]
      have hmem := file_mem h.held hjob
      have hfile := Job.step_done hdone
      refine ⟨hheld, (Job.step_beside hfiles h.disk hmem).1, fun other hother hsole => ?_, front,
        tested ++ [result], hledger.finished rfl rfl rfl rfl ?_ fun hsole => ?_⟩
      · obtain hnew | hold := mem_workers hother
        · cases hnew
        · exact h.stage_step hfiles hworkers hold hsole
      · rw [hworkers, busy_idle, busy_some, hfile]
        grind
      · have hstage := (h.stage job hjob (hfile ▸ hsole)).step hfiles h.disk hmem
        rw [hdone] at hstage
        cases hstage with
        | done halone => exact halone

/-- Every turn keeps all jobs where they would be by themselves. -/
theorem Move.tracks (hfiles : Arranged rig d files) (h : Tracks rig skipped d files p)
    (hmove : Move rig skipped p p') : Tracks rig skipped d files p' := by
  have hheld := hmove.held.trans h.held
  cases hmove with
  | rest => exact h
  | feed file rest hincoming =>
      obtain ⟨front, tested, hledger⟩ := h.ledger
      have hmem : file ∈ files := by simp [hledger.incoming, hincoming]
      obtain ⟨place, hplace⟩ := hfiles.stored file hmem
      have hnext := hledger.feed hincoming (h.disk.read_stored hfiles.fresh hplace)
      obtain ⟨result, -, hoffer⟩ | ⟨hash, hoffer⟩ :=
        offer_cases skipped { p with incoming := rest } file
      · rw [hoffer] at hheld hnext ⊢
        exact ⟨hheld, h.disk, h.stage, _, _, hnext⟩
      · rw [hoffer] at hheld hnext ⊢
        exact ⟨hheld, h.disk, h.stage, _, _, hnext⟩
  | advance hadvance => exact hadvance.tracks hfiles h

/-- In every order of turns the tests of files with names of their own are where they would be by
themselves. -/
theorem tracks_run (hfiles : Arranged rig d files) (skipped : List String) (workers : Nat)
    (turns : List Turn) : Tracks rig skipped d files ((start d workers files).run rig skipped turns) := by
  refine run_induction ?_ (fun hmove h => hmove.tracks hfiles h) turns
  refine ⟨held_run rig skipped files d workers [], .refl hfiles.fresh, fun job hjob => ?_, [], [], rfl, rfl,
    .refl _, ?_, List.forall_mem_nil _⟩
  · exact absurd (List.eq_of_mem_replicate hjob) (Option.some_ne_none _)
  · simp [start, busy, fed]

/-- Two pools that have come to the end agree on files with names of their own: both have tested the file, and a
test by itself can have one result. -/
theorem Tracks.mem_results (h : Tracks rig skipped d files p) (h' : Tracks rig skipped d files q)
    (hp : p.isDone = true) (hq : q.isDone = true) {result : TestResult} (hmem : result ∈ p.results)
    (hsole : Sole files result.file) : result ∈ q.results := by
  obtain ⟨front, tested, hledger⟩ := h.ledger
  obtain ⟨front', tested', hledger'⟩ := h'.ledger
  obtain rfl : front = files := by simpa [(isDone_iff.1 hp).1] using hledger.incoming.symm
  obtain rfl : front' = front := by simpa [(isDone_iff.1 hq).1] using hledger'.incoming.symm
  have hqueue := hledger.queue
  have hqueue' := hledger'.queue
  rw [(isDone_iff.1 hp).2.1, busy_of_isDone hp, List.nil_append, List.nil_append] at hqueue
  rw [(isDone_iff.1 hq).2.1, busy_of_isDone hq, List.nil_append, List.nil_append] at hqueue'
  refine hledger'.results.mem_iff.2 (List.mem_append.2 ?_)
  obtain hmem | hmem := List.mem_append.1 (hledger.results.mem_iff.1 hmem)
  · exact .inl hmem
  · right
    have hfile := (hqueue.trans hqueue'.symm).mem_iff.1 (List.mem_map_of_mem hmem)
    obtain ⟨result', hmem', heq⟩ := List.mem_map.1 hfile
    have hdone := hledger.alone result hmem hsole
    have hdone' := hledger'.alone result' hmem' (heq ▸ hsole)
    rw [heq, hdone] at hdone'
    exact Job.done.inj hdone' ▸ hmem'

end Pool

/-! ### Suites -/

namespace Suite

/-- Results of different files are sorted in one way only. -/
theorem mergeSort_eq {results results' : List TestResult} (h : results.Perm results')
    (hnodup : (results.map (·.file)).Nodup) :
    results.mergeSort (fun a b => decide (a.file ≤ b.file))
      = results'.mergeSort fun a b => decide (a.file ≤ b.file) := by
  have hsorted : ∀ l : List TestResult,
      (l.mergeSort fun a b => decide (a.file ≤ b.file)).Pairwise fun a b => decide (a.file ≤ b.file) = true :=
    List.pairwise_mergeSort (fun a b c hab hbc => by
      rw [decide_eq_true_iff] at hab hbc ⊢
      exact String.le_trans hab hbc) fun a b => by
      rw [Bool.or_eq_true, decide_eq_true_iff, decide_eq_true_iff]
      exact String.le_total a.file b.file
  refine ((List.mergeSort_perm results _).trans
    (h.trans (List.mergeSort_perm results' _).symm)).eq_of_pairwise
      (fun a b ha hb hab hba => ?_) (hsorted _) (hsorted _)
  rw [decide_eq_true_iff] at hab hba
  have ha := (List.mergeSort_perm results _).mem_iff.1 ha
  have hb := h.mem_iff.2 ((List.mergeSort_perm results' _).mem_iff.1 hb)
  exact List.inj_on_of_nodup_map hnodup ha hb (String.le_antisymm hab hba)

theorem sole_of_nodup (h : (files.map base).Nodup) (hfile : file ∈ files) : Sole files file :=
  fun _ hother hbase => List.inj_on_of_nodup_map h hother hfile hbase

/-- Two complete runs of a suite have the same results, whatever the order of their turns. -/
theorem results_perm (hfiles : Arranged rig d files) {workers workers' : Nat} {turns turns' : List Turn}
    {p q : Pool} (hp : p = (Pool.start d workers files).run rig skipped turns)
    (hq : q = (Pool.start d workers' files).run rig skipped turns') (hdone : p.isDone = true)
    (hdone' : q.isDone = true) (hbase : (files.map base).Nodup) : p.results.Perm q.results := by
  have htracks : Pool.Tracks rig skipped d files p := hp ▸ Pool.tracks_run hfiles skipped workers turns
  have htracks' : Pool.Tracks rig skipped d files q := hq ▸ Pool.tracks_run hfiles skipped workers' turns'
  have hall := Pool.results_of_isDone htracks.held hdone
  have hall' := Pool.results_of_isDone htracks'.held hdone'
  have hnodup : p.results.Nodup := (hall.nodup_iff.2 hfiles.nodup).of_map _
  refine (List.subperm_of_subset hnodup fun result hmem => ?_).perm_of_length_le ?_
  · refine htracks.mem_results htracks' hdone hdone' hmem (sole_of_nodup hbase ?_)
    exact hall.mem_iff.1 (List.mem_map_of_mem hmem)
  · have hlength := (hall'.trans hall.symm).length_eq
    rw [List.length_map, List.length_map] at hlength
    exact Nat.le_of_eq hlength

/-- Tests that run side by side do not disturb each other as long as their files have different names.
In every order in which any number of workers take their turns, a worker that goes on to run what it has
built finds what was built from its own file, if no other file has the same name; and at the end every
file has one result, which for such a file is the result that one worker gets. Every number of jobs leads
to the end, and if all names are different the results are those of a single job. -/
theorem jobs_isolated (rig : Rig) {d : Disk} {patterns : String} {files : List String}
    (skipped : List String) (hcwd : IsPlace d.cwd) (hfresh : rig.IsFresh d)
    (hfound : Suite.files d patterns = .ok files) (hrig : rig.Contained d files) :
    files.Nodup ∧
    (∀ (workers : Nat) (turns : List Turn),
      let p := (Pool.start d workers files).run rig skipped turns
      (∀ file golden run diff, some (.built file golden run diff) ∈ p.workers → Sole files file →
        p.disk.read (rig.compiledPath file) = (rig.build d file).2.read (rig.compiledPath file) ∧
        (rig.exec p.disk file).1 = (rig.exec (rig.build d file).2 file).1) ∧
      (p.isDone = true → (p.results.map (·.file)).Perm files ∧
        ∀ result ∈ p.results, Sole files result.file →
          result ∈ (Suite.run rig d 1 skipped files).results)) ∧
    ∀ jobs : Int, (Suite.run rig d jobs skipped files).isDone = true ∧
      ((Suite.run rig d jobs skipped files).results.map (·.file)).Perm files ∧
      ((files.map base).Nodup →
        (Suite.run rig d jobs skipped files).results = (Suite.run rig d 1 skipped files).results) := by
  obtain ⟨hnodup, hstored⟩ := files_stored hcwd hfound
  have hfiles : Arranged rig d files := ⟨hnodup, hstored, hfresh, hrig⟩
  obtain ⟨workers₁, turns₁, hdone₁, hrun₁⟩ := exists_pool rig d 1 skipped files
  have htracks₁ := Pool.tracks_run hfiles skipped workers₁ turns₁
  refine ⟨hnodup, fun workers turns => ?_, fun jobs => ?_⟩
  · have htracks := Pool.tracks_run hfiles skipped workers turns
    refine ⟨fun file golden run diff hworker hsole => ?_, fun hdone => ⟨?_, fun result hmem hsole => ?_⟩⟩
    · have hmem : file ∈ files := Pool.file_mem htracks.held hworker
      cases htracks.stage _ hworker hsole with
      | built hbegin hbuild hcontent =>
          exact ⟨hcontent, hrig.exec htracks.disk (hrig.build_beside (.refl hfresh) hmem) hmem hcontent⟩
    · exact Pool.results_of_isDone (Pool.held_run rig skipped files d workers turns) hdone
    · rw [hrun₁]
      exact (List.mergeSort_perm _ _).mem_iff.2 (htracks.mem_results htracks₁ hdone hdone₁ hmem hsole)
  · obtain ⟨workers, turns, hdone, hrun⟩ := exists_pool rig d jobs skipped files
    have hall := Pool.results_of_isDone (Pool.held_run rig skipped files d workers turns) hdone
    rw [hrun, hrun₁]
    refine ⟨hdone, ((List.mergeSort_perm _ _).map _).trans hall, fun hbase => ?_⟩
    exact mergeSort_eq (results_perm hfiles rfl rfl hdone hdone₁ hbase) (hall.nodup_iff.2 hnodup)

/-- The record of a program that ends well with this output. -/
def record (output : String) : Node :=
  .file (Text.encode (Json.Value.object [("run", .object [("stdout", .text output)])]).toText)

/-- A disk with the compiler and two programs in two folders, the second of which has a given name. -/
def shelf (name : String) : Disk where
  cwd := ["work"]
  nodes := [
    (["tmp"], .folder), (TesterTool.folder, .folder),
    (["work"], .folder), (["work", "swindle"], .program),
    (["work", "a"], .folder), (["work", "a", "x.sw"], .file (Text.encode "writeln 1")),
    (["work", "a", ".x.sw.json"], record "1\n"),
    (["work", "b"], .folder), (["work", "b", name], .file (Text.encode "writeln 2")),
    (["work", "b", "." ++ name ++ ".json"], record "2\n")]

/-- The tests that the tool makes when no flags are given. -/
def plainRig : Rig := TesterTool.rigOf "" {} { flags := TesterTool.ownFlags }

theorem prepared_shelf {name patterns : String} {files : List String}
    (hlocated : TesterTool.locate (shelf name) "./swindle" = .ok ())
    (hfound : Suite.files (shelf name) patterns = .ok files) :
    TesterTool.Prepared "" {} { flags := TesterTool.ownFlags } (shelf name) patterns files where
  cwd := by simp [IsPlace, IsName, shelf]
  fresh := by
    rintro (_ | ⟨part, rest⟩) hne
    · exact absurd rfl hne
    · rw [TesterTool.place_rigOf]
      simp [Disk.at?, shelf, TesterTool.folder, List.lookup_cons]
  extra := by decide
  located := hlocated
  files := hfound

/-- Two programs with different names pass with two jobs, and the results are those of one job. -/
theorem jobs_isolated_two_names :
    let files := ["/work/a/x.sw", "/work/b/y.sw"]
    Suite.files (shelf "y.sw") "a/x.sw b/y.sw" = .ok files ∧
    ((Suite.run plainRig (shelf "y.sw") 2 [] files).results.map (·.verdict)).Perm [.pass, .pass] ∧
    (Suite.run plainRig (shelf "y.sw") 2 [] files).results
      = (Suite.run plainRig (shelf "y.sw") 1 [] files).results := by
  have hfound : Suite.files (shelf "y.sw") "a/x.sw b/y.sw" = .ok ["/work/a/x.sw", "/work/b/y.sw"] := by
    decide +kernel
  have hready := prepared_shelf (by decide +kernel) hfound
  have hisolated := jobs_isolated plainRig [] hready.cwd hready.fresh hfound (TesterTool.rigOf_contained hready)
  exact ⟨hfound, ((List.mergeSort_perm _ _).map _).trans (.of_eq (by decide +kernel)),
    (hisolated.2.2 2).2.2 (by decide +kernel)⟩

/-- Two programs of one name do disturb each other. With one job both of them pass. With two jobs the
second program is built over the first before that is run, so the first worker runs the second program
and finds a difference. -/
theorem jobs_collide :
    let files := ["/work/a/x.sw", "/work/b/x.sw"]
    let p := (Pool.start (shelf "x.sw") 2 files).run plainRig [] ((Pool.turns 2 2).take 8)
    Suite.files (shelf "x.sw") "a/x.sw b/x.sw" = .ok files ∧ plainRig.Contained (shelf "x.sw") files ∧
    (p.workers.map (·.map Job.left) = [some 1, some 1] ∧
      (plainRig.exec p.disk "/work/a/x.sw").1.stdout = "2\n" ∧
      (plainRig.exec (plainRig.build (shelf "x.sw") "/work/a/x.sw").2 "/work/a/x.sw").1.stdout = "1\n") ∧
    ((Suite.run plainRig (shelf "x.sw") 1 [] files).results.map (·.verdict)).Perm [.pass, .pass] ∧
    ((Suite.run plainRig (shelf "x.sw") 2 [] files).results.map (·.verdict)).Perm [.fail, .pass] := by
  have hfound : Suite.files (shelf "x.sw") "a/x.sw b/x.sw" = .ok ["/work/a/x.sw", "/work/b/x.sw"] := by
    decide +kernel
  exact ⟨hfound, TesterTool.rigOf_contained (prepared_shelf (by decide +kernel) hfound), by decide +kernel,
    ((List.mergeSort_perm _ _).map _).trans (.of_eq (by decide +kernel)),
    ((List.mergeSort_perm _ _).map _).trans (.of_eq (by decide +kernel))⟩

end Suite

end BlockLang

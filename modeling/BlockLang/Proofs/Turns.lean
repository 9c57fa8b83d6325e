import BlockLang.Golden.Suite
import Mathlib.Data.List.Basic

/-! Turns of a feeder and its workers, whatever program is under test. A turn moves files on: from the
feeder to the queue, to a worker, to the results. No file is lost or doubled, so at the end there is one
result for each of them; and a turn of a worker that has something to do brings the end closer, so the
order of turns that a suite takes gets there. -/

namespace BlockLang

namespace Job

def file : Job → String
  | waiting file => file
  | ran file _ _ _ => file
  | built file _ _ _ => file
  | done result => result.file

/-- How many more turns a worker may need for a job. -/
def left : Job → Nat
  | waiting _ => 3
  | ran _ _ _ _ => 2
  | built _ _ _ _ => 1
  | done _ => 1

theorem judge_file (file : String) (golden : Golden) (run : Execution) (exec : Option Execution)
    (diff : String) : (judge file golden run exec diff).file = file := by
  rw [judge]
  split <;> rfl

/-- The first step leads to a run of the source or ends the test. -/
theorem begin_cases (rig : Rig) (d : Disk) (file : String) :
    (∃ golden run diff, (begin rig d file).1 = ran file golden run diff) ∨
      ∃ result, (begin rig d file).1 = done result ∧ result.file = file := by
  unfold begin
  split
  · exact .inr ⟨_, rfl, rfl⟩
  · split
    · exact .inr ⟨_, rfl, rfl⟩
    · exact .inl ⟨_, _, _, rfl⟩

/-- The second step builds the source or ends the test. -/
theorem build_cases (rig : Rig) (d : Disk) (file : String) (golden : Golden) (run : Execution)
    (diff : String) :
    (build rig d file golden run diff).1 = built file golden run diff ∨
      ∃ result, (build rig d file golden run diff).1 = done result ∧ result.file = file := by
  unfold build
  split
  · exact .inr ⟨_, rfl, judge_file _ _ _ _ _⟩
  · dsimp only
    split
    · exact .inr ⟨_, rfl, judge_file _ _ _ _ _⟩
    · exact .inl rfl

/-- What a step makes of a job: it ends with a result for the file, or fewer turns are left. -/
theorem step_cases (rig : Rig) (d : Disk) (job : Job) :
    (∃ result, (job.step rig d).1 = done result ∧ result.file = job.file) ∨
      ((∀ result, (job.step rig d).1 ≠ done result) ∧ (job.step rig d).1.file = job.file ∧
        (job.step rig d).1.left < job.left) := by
  cases job with
  | waiting file =>
      obtain ⟨golden, run, diff, h⟩ | ⟨result, h, hfile⟩ := begin_cases rig d file
      · right
        rw [show (step rig d (waiting file)).1 = ran file golden run diff from h]
        exact ⟨fun _ => Job.noConfusion, rfl, by simp [left]⟩
      · exact .inl ⟨result, h, hfile⟩
  | ran file golden run diff =>
      obtain h | ⟨result, h, hfile⟩ := build_cases rig d file golden run diff
      · right
        rw [show (step rig d (ran file golden run diff)).1 = built file golden run diff from h]
        exact ⟨fun _ => Job.noConfusion, rfl, by simp [left]⟩
      · exact .inl ⟨result, h, hfile⟩
  | built file golden run diff => exact .inl ⟨_, rfl, judge_file _ _ _ _ _⟩
  | done result => exact .inl ⟨result, rfl, rfl⟩

theorem step_open {rig : Rig} {d : Disk} {job : Job} (h : ∀ result, (job.step rig d).1 ≠ done result) :
    (job.step rig d).1.file = job.file ∧ (job.step rig d).1.left < job.left := by
  obtain ⟨result, hdone, -⟩ | ⟨-, hnext⟩ := step_cases rig d job
  · exact absurd hdone (h result)
  · exact hnext

theorem step_done {rig : Rig} {d : Disk} {job : Job} {result : TestResult}
    (h : (job.step rig d).1 = done result) : result.file = job.file := by
  obtain ⟨result', hdone, hfile⟩ | ⟨hopen, -⟩ := step_cases rig d job
  · rw [← Job.done.inj (hdone.symm.trans h), hfile]
  · exact absurd h (hopen result)

end Job

namespace Pool

/-- What a worker can do. -/
inductive Advance (rig : Rig) (p : Pool) : Pool → Prop
  /-- It takes a file from the queue. -/
  | take (before after : List (Option Job)) (file : String) (rest : List String)
      (hworkers : p.workers = before ++ none :: after) (hqueue : p.queue = file :: rest) :
      Advance rig p { p with queue := rest, workers := before ++ some (.waiting file) :: after }
  /-- It takes a step that does not end its test. -/
  | step (before after : List (Option Job)) (job : Job)
      (hworkers : p.workers = before ++ some job :: after)
      (hopen : ∀ result, (job.step rig p.disk).1 ≠ .done result) :
      Advance rig p
        { p with
          disk := (job.step rig p.disk).2.1
          notes := p.notes ++ (job.step rig p.disk).2.2
          workers := before ++ some (job.step rig p.disk).1 :: after }
  /-- It takes the last step of its test. -/
  | finish (before after : List (Option Job)) (job : Job) (result : TestResult)
      (hworkers : p.workers = before ++ some job :: after)
      (hdone : (job.step rig p.disk).1 = .done result) :
      Advance rig p
        { p with
          disk := (job.step rig p.disk).2.1
          notes := p.notes ++ (job.step rig p.disk).2.2
          workers := before ++ none :: after
          results := p.results ++ [result] }

/-- What a turn can do. -/
inductive Move (rig : Rig) (skipped : List String) (p : Pool) : Pool → Prop
  /-- There is nothing to do. -/
  | rest : Move rig skipped p p
  /-- The feeder looks at a file. -/
  | feed (file : String) (rest : List String) (hincoming : p.incoming = file :: rest) :
      Move rig skipped p (offer skipped { p with incoming := rest } file)
  /-- A worker goes on. -/
  | advance {p' : Pool} (h : Advance rig p p') : Move rig skipped p p'

variable {rig : Rig} {skipped : List String} {p p' : Pool}

theorem exists_of_getElem? {workers : List (Option Job)} {index : Nat} {o : Option Job}
    (h : workers[index]? = some o) :
    ∃ before after, workers = before ++ o :: after ∧
      ∀ o', workers.set index o' = before ++ o' :: after := by
  obtain ⟨hlt, rfl⟩ := List.getElem?_eq_some_iff.1 h
  refine ⟨workers.take index, workers.drop (index + 1), ?_, fun o' => ?_⟩
  · rw [← List.drop_eq_getElem_cons hlt, List.take_append_drop]
  · rw [List.set_eq_take_append_cons_drop, if_pos hlt]

/-- A worker goes on unless it has no test and finds none in the queue. -/
theorem work_cases (rig : Rig) (p : Pool) (index : Nat) :
    (p.work rig index = p ∧ (p.workers[index]? = none ∨ p.workers[index]? = some none ∧ p.queue = [])) ∨
      Advance rig p (p.work rig index) := by
  rw [work]
  split
  · exact .inl ⟨rfl, .inl ‹_›⟩
  · rename_i job hjob
    obtain ⟨before, after, hworkers, hset⟩ := exists_of_getElem? hjob
    right
    dsimp only
    by_cases hdone : ∃ result, (job.step rig p.disk).1 = .done result
    · obtain ⟨result, hdone⟩ := hdone
      have hadvance := Advance.finish before after job result hworkers hdone
      rw [← hset] at hadvance
      rw [hdone]
      exact hadvance
    · have hopen := not_exists.1 hdone
      have hadvance := Advance.step before after job hworkers hopen
      rw [← hset] at hadvance
      rw [settle]
      · exact hadvance
      · exact hopen
  · rename_i hidle
    obtain ⟨before, after, hworkers, hset⟩ := exists_of_getElem? hidle
    split
    · exact .inl ⟨rfl, .inr ⟨hidle, ‹_›⟩⟩
    · rename_i file rest hqueue
      have hadvance : Advance rig p _ := .take before after file rest hworkers hqueue
      rw [← hset] at hadvance
      exact .inr hadvance

/-- Every turn is a move, or does nothing. -/
theorem take_move (rig : Rig) (skipped : List String) (p : Pool) (turn : Turn) :
    Move rig skipped p (p.take rig skipped turn) := by
  cases turn with
  | feeder =>
      rw [take, Pool.feed]
      split
      · exact .rest
      · exact .feed _ _ ‹_›
  | worker index =>
      rw [take]
      obtain ⟨hsame, -⟩ | hadvance := work_cases rig p index
      · rw [hsame]
        exact .rest
      · exact .advance hadvance

theorem run_append (rig : Rig) (skipped : List String) (p : Pool) (turns turns' : List Turn) :
    p.run rig skipped (turns ++ turns') = (p.run rig skipped turns).run rig skipped turns' :=
  List.foldl_append

/-- What holds at the start and is kept by every turn holds after all turns. -/
theorem run_induction {motive : Pool → Prop} (hstart : motive p)
    (hmove : ∀ {p p'}, Move rig skipped p p' → motive p → motive p') (turns : List Turn) :
    motive (p.run rig skipped turns) := by
  induction turns generalizing p with
  | nil => exact hstart
  | cons turn turns ih => exact ih (hmove (take_move rig skipped p turn) hstart)

def busy (workers : List (Option Job)) : List String := workers.filterMap (·.map Job.file)

/-- All files of a pool, wherever they have got to. -/
def held (p : Pool) : List String :=
  p.incoming ++ (p.queue ++ (busy p.workers ++ p.results.map (·.file)))

theorem busy_append (before after : List (Option Job)) : busy (before ++ after) = busy before ++ busy after :=
  List.filterMap_append

theorem busy_idle (before after : List (Option Job)) :
    busy (before ++ none :: after) = busy before ++ busy after := busy_append _ _

theorem busy_some (before after : List (Option Job)) (job : Job) :
    busy (before ++ some job :: after) = busy before ++ job.file :: busy after := busy_append _ _

theorem inspect_error {seen : List (String × String)} {file : String}
    {content : Except DiskError (List UInt8)} {result : TestResult}
    (h : inspect skipped seen file content = .error result) : result.file = file := by
  unfold inspect at h
  split at h
  · cases h
    rfl
  · split at h
    · cases h
      rfl
    · split at h
      · cases h
        rfl
      · cases h

/-- A file that the feeder looks at gets a result or is queued. -/
theorem offer_cases (skipped : List String) (p : Pool) (file : String) :
    (∃ result, result.file = file ∧ offer skipped p file = p.add result) ∨
      ∃ hash, offer skipped p file
        = { p with queue := p.queue ++ [file], seen := (hash, file) :: p.seen } := by
  unfold offer
  split
  · exact .inl ⟨_, inspect_error ‹_›, rfl⟩
  · exact .inr ⟨_, rfl⟩

/-- A worker hands files on and neither loses nor doubles any. -/
theorem Advance.held (h : Advance rig p p') : p'.held.Perm p.held := by
  cases h with
  | take before after file rest hworkers hqueue =>
      simp only [Pool.held, hworkers, hqueue, busy_idle, busy_some, Job.file]
      grind
  | step before after job hworkers hopen =>
      simp only [Pool.held, hworkers, busy_some, (Job.step_open hopen).1]
      exact .refl _
  | finish before after job result hworkers hdone =>
      simp only [Pool.held, hworkers, busy_idle, busy_some, List.map_append, List.map_cons, List.map_nil,
        Job.step_done hdone]
      grind

/-- A move neither loses nor adds a file. -/
theorem Move.held (h : Move rig skipped p p') : p'.held.Perm p.held := by
  cases h with
  | rest => exact .refl _
  | feed file rest hincoming =>
      obtain ⟨result, hfile, hoffer⟩ | ⟨hash, hoffer⟩ :=
        offer_cases skipped { p with incoming := rest } file
      · rw [hoffer]
        simp only [Pool.held, Pool.add, hincoming, List.map_append, List.map_cons, List.map_nil, hfile]
        grind
      · rw [hoffer]
        simp only [Pool.held, hincoming]
        grind
  | advance h => exact h.held

/-- No file is lost or doubled in any order of turns. -/
theorem held_run (rig : Rig) (skipped files : List String) (d : Disk) (jobs : Nat) (turns : List Turn) :
    ((start d jobs files).run rig skipped turns).held.Perm files := by
  refine run_induction ?_ (fun hmove hp => hmove.held.trans hp) turns
  simp [Pool.held, start, busy]

theorem isDone_iff : p.isDone = true ↔ p.incoming = [] ∧ p.queue = [] ∧ ∀ o ∈ p.workers, o = none := by
  simp [isDone, and_assoc]

theorem busy_of_isDone (h : p.isDone = true) : busy p.workers = [] := by
  rw [busy, List.filterMap_eq_nil_iff]
  intro o ho
  rw [(isDone_iff.1 h).2.2 o ho]
  rfl

/-- At the end every file has one result. -/
theorem results_of_isDone {files : List String} (hheld : p.held.Perm files) (hdone : p.isDone = true) :
    (p.results.map (·.file)).Perm files := by
  obtain ⟨hincoming, hqueue, -⟩ := isDone_iff.1 hdone
  simpa [Pool.held, hincoming, hqueue, busy_of_isDone hdone] using hheld

/-! ### Progress -/

/-- How many more turns workers may need for the tests that they have. -/
def owed : List (Option Job) → Nat
  | [] => 0
  | none :: workers => owed workers
  | some job :: workers => job.left + owed workers

theorem owed_append (before after : List (Option Job)) : owed (before ++ after) = owed before + owed after := by
  induction before with
  | nil => rw [List.nil_append, owed, Nat.zero_add]
  | cons o before ih =>
      cases o with
      | none => rw [List.cons_append, owed, owed, ih]
      | some job => rw [List.cons_append, owed, owed, ih, Nat.add_assoc]

theorem owed_eq_zero {workers : List (Option Job)} (h : ∀ o ∈ workers, o = none) : owed workers = 0 := by
  induction workers with
  | nil => rfl
  | cons o workers ih =>
      obtain rfl := h o List.mem_cons_self
      exact ih fun o ho => h o (List.mem_cons_of_mem _ ho)

/-- How many more turns the workers may need. -/
def rank (p : Pool) : Nat := 4 * p.queue.length + owed p.workers

/-- Workers whose feeder has looked at all files. -/
structure Fed (p : Pool) (jobs : Nat) : Prop where
  incoming : p.incoming = []
  workers : p.workers.length = jobs

/-- Each advance brings the end nearer. -/
theorem Advance.rank_lt (h : Advance rig p p') : p'.rank < p.rank := by
  cases h with
  | take before after file rest hworkers hqueue =>
      simp only [rank, hworkers, hqueue, owed_append, owed, List.length_cons, Job.left]
      omega
  | step before after job hworkers hopen =>
      have hleft := (Job.step_open hopen).2
      simp only [rank, hworkers, owed_append, owed]
      omega
  | finish before after job result hworkers hdone =>
      have hleft : 0 < job.left := by cases job <;> simp [Job.left]
      simp only [rank, hworkers, owed_append, owed]
      omega

theorem Advance.fed {jobs : Nat} (h : Advance rig p p') (hp : p.Fed jobs) : p'.Fed jobs := by
  cases h with
  | take before after file rest hworkers hqueue
  | step before after job hworkers hopen
  | finish before after job result hworkers hdone =>
      exact ⟨hp.incoming, by simpa [hworkers] using hp.workers⟩

/-- Workers that take turns come closer to the end, or nothing is left for any of them. -/
theorem run_workers {jobs : Nat} (hp : p.Fed jobs) (indices : List Nat) :
    (p.run rig skipped (indices.map .worker)).Fed jobs ∧
      ((p.run rig skipped (indices.map .worker)).rank < p.rank ∨
        p.run rig skipped (indices.map .worker) = p ∧
          ∀ index ∈ indices, index < jobs → p.workers[index]? = some none ∧ p.queue = []) := by
  induction indices generalizing p with
  | nil => exact ⟨hp, .inr ⟨rfl, List.forall_mem_nil _⟩⟩
  | cons index indices ih =>
      obtain ⟨hsame, hidle⟩ | hadvance := work_cases rig p index
      · obtain ⟨hfed, hrest⟩ := ih hp
        have hrun : p.run rig skipped ((index :: indices).map .worker)
            = p.run rig skipped (indices.map .worker) := by
          rw [List.map_cons, run, List.foldl_cons, take, hsame]
          rfl
        rw [hrun]
        refine ⟨hfed, hrest.imp_right fun ⟨hrun, hall⟩ => ⟨hrun, fun other hother hlt => ?_⟩⟩
        obtain rfl | hother := List.mem_cons.1 hother
        · obtain hnone | hidle := hidle
          · rw [List.getElem?_eq_none_iff, hp.workers] at hnone
            omega
          · exact hidle
        · exact hall other hother hlt
      · obtain ⟨hfed, hrest⟩ := ih (hadvance.fed hp)
        refine ⟨hfed, .inl ?_⟩
        obtain hlt | ⟨hrun, -⟩ := hrest
        · exact Nat.lt_trans hlt hadvance.rank_lt
        · exact Nat.lt_of_le_of_lt (Nat.le_of_eq (congrArg rank hrun)) hadvance.rank_lt

/-- If a round of all workers does nothing, there is nothing to do. -/
theorem isDone_of_idle {jobs : Nat} (hjobs : 0 < jobs) (hp : p.Fed jobs)
    (hidle : ∀ index ∈ List.range jobs, index < jobs → p.workers[index]? = some none ∧ p.queue = []) :
    p.isDone = true := by
  have hqueue := (hidle 0 (List.mem_range.2 hjobs) hjobs).2
  refine isDone_iff.2 ⟨hp.incoming, hqueue, fun o ho => ?_⟩
  obtain ⟨index, hlt, rfl⟩ := List.mem_iff_getElem.1 ho
  have hindex : index < jobs := hp.workers ▸ hlt
  have hnone := (hidle index (List.mem_range.2 hindex) hindex).1
  rw [List.getElem?_eq_getElem hlt] at hnone
  exact Option.some.inj hnone

theorem rank_of_isDone (h : p.isDone = true) : p.rank = 0 := by
  obtain ⟨-, hqueue, hworkers⟩ := isDone_iff.1 h
  rw [rank, hqueue, owed_eq_zero hworkers]
  rfl

/-- Rounds of all workers lead to the end if there are as many as turns may be needed. -/
theorem run_rounds {jobs rounds : Nat} (hjobs : 0 < jobs) (hp : p.Fed jobs) (hrank : p.rank ≤ rounds) :
    (p.run rig skipped (List.replicate rounds ((List.range jobs).map .worker)).flatten).isDone = true := by
  have hround := @run_workers rig skipped
  induction rounds generalizing p with
  | zero =>
      obtain ⟨-, hlt | ⟨-, hidle⟩⟩ := hround hp (List.range jobs)
      · omega
      · exact isDone_of_idle hjobs hp hidle
  | succ rounds ih =>
      rw [List.replicate_succ, List.flatten_cons, run_append]
      obtain ⟨hfed, hlt | ⟨hsame, hidle⟩⟩ := hround hp (List.range jobs)
      · exact ih hfed (by omega)
      · rw [hsame]
        exact ih hp (by rw [rank_of_isDone (isDone_of_idle hjobs hp hidle)]; omega)

/-- The feeder looks at all files when it takes as many turns, and queues some of them. -/
theorem run_feeder {files : List String} (hincoming : p.incoming = files) :
    let q := p.run rig skipped (List.replicate files.length .feeder)
    q.incoming = [] ∧ q.workers = p.workers ∧ q.queue.length ≤ p.queue.length + files.length := by
  induction files generalizing p with
  | nil => exact ⟨hincoming, rfl, by simp [run]⟩
  | cons file files ih =>
      have hfeed : p.take rig skipped .feeder = offer skipped { p with incoming := files } file := by
        rw [take, Pool.feed, hincoming]
      rw [List.length_cons, List.replicate_succ, run, List.foldl_cons, hfeed]
      obtain ⟨result, -, hoffer⟩ | ⟨hash, hoffer⟩ :=
        offer_cases skipped { p with incoming := files } file
      · rw [hoffer]
        obtain ⟨hempty, hworkers, hlength⟩ := @ih ({ p with incoming := files }.add result) rfl
        refine ⟨hempty, hworkers, Nat.le_trans hlength ?_⟩
        simp only [Pool.add]
        omega
      · rw [hoffer]
        obtain ⟨hempty, hworkers, hlength⟩ :=
          @ih { p with incoming := files, queue := p.queue ++ [file], seen := (hash, file) :: p.seen } rfl
        refine ⟨hempty, hworkers, Nat.le_trans hlength ?_⟩
        simp only [List.length_append, List.length_singleton]
        omega

/-- The order of turns that a suite takes leads to the end. -/
theorem run_turns (rig : Rig) (skipped files : List String) (d : Disk) {jobs : Nat}
    (hjobs : files ≠ [] → 0 < jobs) :
    ((start d jobs files).run rig skipped (turns jobs files.length)).isDone = true := by
  by_cases hfiles : files = []
  · subst hfiles
    exact isDone_iff.2 ⟨rfl, rfl, fun o ho => List.eq_of_mem_replicate ho⟩
  · rw [turns, run_append]
    have hfeeder := @run_feeder rig skipped (start d jobs files) files rfl
    generalize (start d jobs files).run rig skipped (List.replicate files.length .feeder) = q at hfeeder
    obtain ⟨hincoming, hworkers, hqueue⟩ := hfeeder
    refine run_rounds (hjobs hfiles) ⟨hincoming, by simp [hworkers, start]⟩ ?_
    have howed : owed (start d jobs files).workers = 0 := owed_eq_zero fun o ho => List.eq_of_mem_replicate ho
    rw [rank, hworkers, howed]
    simp only [start, List.length_nil, Nat.zero_add] at hqueue
    omega

end Pool

namespace Suite

/-- A suite runs its workers to the end and sorts the results. -/
theorem exists_pool (rig : Rig) (d : Disk) (jobs : Int) (skipped files : List String) :
    ∃ workers turns, ((Pool.start d workers files).run rig skipped turns).isDone = true ∧
      Suite.run rig d jobs skipped files
        = { (Pool.start d workers files).run rig skipped turns with
            results := ((Pool.start d workers files).run rig skipped turns).results.mergeSort
              fun a b => decide (a.file ≤ b.file) } := by
  refine ⟨_, _, Pool.run_turns rig skipped files d fun hfiles => ?_, rfl⟩
  have hlength := List.length_pos_iff.2 hfiles
  omega

end Suite

end BlockLang

import BlockLang.Golden.Job

/-! Tests side by side. A feeder looks at the files one after the other and queues those that are to be
tested; each worker takes a file from the queue, takes the steps of its test, and goes on with the next
file. They all share one disk. Who does something next is decided from outside, so that every order in
which feeder and workers can take their turns is a list of turns. -/

namespace BlockLang

/-- Whose turn it is. -/
inductive Turn where
  | feeder
  | worker (index : Nat)
  deriving DecidableEq, Repr, Inhabited

/-- A feeder and workers on one disk. -/
structure Pool where
  disk : Disk
  /-- The files that the feeder has not looked at. -/
  incoming : List String
  /-- The files that wait for a worker. -/
  queue : List String := []
  /-- The files that were queued, by the hash of their content. -/
  seen : List (String × String) := []
  /-- The test of each worker, if it has one. -/
  workers : List (Option Job)
  results : List TestResult := []
  /-- What was logged. -/
  notes : List LogEntry := []
  deriving DecidableEq, Repr, Inhabited

namespace Pool

/-- Workers that have not begun with some files. -/
def start (d : Disk) (jobs : Nat) (files : List String) : Pool :=
  { disk := d, incoming := files, workers := List.replicate jobs none }

def add (p : Pool) (r : TestResult) : Pool := { p with results := p.results ++ [r] }

/-- What speaks against testing a file, where the content is what was read from it; or else the hash
of the content. -/
def inspect (skipped : List String) (seen : List (String × String)) (file : String)
    (content : Except DiskError (List UInt8)) : Except TestResult String :=
  if skipped.contains file || skipped.contains (Path.base file) then
    .error { file, verdict := .skip, message := "Explicitly skipped" }
  else
    match content with
    | .error e =>
      .error { file, verdict := .error, message := "Failed to read file for hashing: " ++ e.message }
    | .ok content =>
      match seen.lookup (Golden.hashText content) with
      | some first =>
        .error { file, verdict := .skip, message := "Content is identical to " ++ first }
      | none => .ok (Golden.hashText content)

/-- Queues a file unless something speaks against testing it. -/
def offer (skipped : List String) (p : Pool) (file : String) : Pool :=
  match inspect skipped p.seen file (p.disk.read file) with
  | .error result => p.add result
  | .ok hash => { p with queue := p.queue ++ [file], seen := (hash, file) :: p.seen }

/-- The feeder looks at the next file. -/
def feed (skipped : List String) (p : Pool) : Pool :=
  match p.incoming with
  | [] => p
  | file :: rest => offer skipped { p with incoming := rest } file

/-- What a worker has after a step of its test. -/
def settle (p : Pool) (index : Nat) (job : Job) : Pool :=
  match job with
  | .done result => { p with workers := p.workers.set index none }.add result
  | _ => { p with workers := p.workers.set index (some job) }

/-- A worker takes a step of its test, or takes a file from the queue if it has no test. -/
def work (rig : Rig) (p : Pool) (index : Nat) : Pool :=
  match p.workers[index]? with
  | none => p
  | some (some job) =>
    let (job, disk, notes) := job.step rig p.disk
    { p with disk, notes := p.notes ++ notes }.settle index job
  | some none =>
    match p.queue with
    | [] => p
    | file :: rest =>
      { p with queue := rest, workers := p.workers.set index (some (.waiting file)) }

def take (rig : Rig) (skipped : List String) (p : Pool) : Turn → Pool
  | .feeder => p.feed skipped
  | .worker index => p.work rig index

def run (rig : Rig) (skipped : List String) (p : Pool) (turns : List Turn) : Pool :=
  turns.foldl (take rig skipped) p

/-- Whether there is nothing left to do. -/
def isDone (p : Pool) : Bool :=
  p.incoming.isEmpty && p.queue.isEmpty && p.workers.all (·.isNone)

/-- An order of turns that is long enough for a number of files: the feeder comes first, and then the
workers come round and round. A file is taken from the queue once, and its test has three steps. -/
def turns (jobs files : Nat) : List Turn :=
  List.replicate files .feeder
    ++ (List.replicate (4 * files) ((List.range jobs).map .worker)).flatten

end Pool

end BlockLang

import BlockLang.Proofs.Arguments
import BlockLang.Proofs.Folders
import BlockLang.Proofs.Sequence
import BlockLang.Tool.Tester

/-! What the compiler does to a disk. Running a source or a built program changes nothing on the disk, and
building changes the built program only; and none of them looks at the built forms of other programs.
This is all that tests of programs need to know about the program that they start. -/

namespace BlockLang

open BlockLang.Path Sequence

namespace Rig

/-- The place of the folder for temporary files. -/
def place (rig : Rig) : List String := absolute [] rig.folder

/-- A place for the built form of some program. -/
def IsBuilt (rig : Rig) (place : List String) : Prop := ∃ name, place = rig.place ++ [name ++ "bc"]

/-- The folder for temporary files is empty. -/
def IsFresh (rig : Rig) (d : Disk) : Prop := ∀ rest ≠ [], d.at? (rig.place ++ rest) = none

/-- A disk that differs from `d` in the built forms of programs only, none of which is a folder. -/
structure Beside (rig : Rig) (d d' : Disk) : Prop where
  cwd : d'.cwd = d.cwd
  same : ∀ place, ¬rig.IsBuilt place → d'.at? place = d.at? place
  plain : ∀ place, rig.IsBuilt place → d'.at? place ≠ some .folder

/-- A program under test that keeps to itself, as far as some files on a disk are concerned: a run
changes nothing, building changes the built form only, and what happens depends on built forms only
where one is run. -/
structure Contained (rig : Rig) (d : Disk) (files : List String) : Prop where
  run {d' : Disk} {file : String} (h : rig.Beside d d') (hfile : file ∈ files) :
    rig.run d' file = ((rig.run d file).1, d')
  build {d' : Disk} {file : String} (h : rig.Beside d d') (hfile : file ∈ files) :
    (rig.build d' file).1 = (rig.build d file).1
  build_beside {d' : Disk} {file : String} (h : rig.Beside d d') (hfile : file ∈ files) :
    rig.Beside d (rig.build d' file).2
  build_content {d' : Disk} {file : String} (h : rig.Beside d d') (hfile : file ∈ files)
    (hcode : (rig.build d file).1.exitCode = 0) :
    (rig.build d' file).2.read (rig.compiledPath file) = (rig.build d file).2.read (rig.compiledPath file)
  build_other {d' : Disk} {file other : String} (h : rig.Beside d d') (hfile : file ∈ files)
    (hother : other ∈ files) (hbase : base other ≠ base file) :
    (rig.build d' file).2.read (rig.compiledPath other) = d'.read (rig.compiledPath other)
  exec {d' d'' : Disk} {file : String} (h : rig.Beside d d') (h' : rig.Beside d d'')
    (hfile : file ∈ files)
    (hcontent : d'.read (rig.compiledPath file) = d''.read (rig.compiledPath file)) :
    (rig.exec d' file).1 = (rig.exec d'' file).1
  exec_disk {d' : Disk} {file : String} (h : rig.Beside d d') (hfile : file ∈ files) :
    (rig.exec d' file).2 = d'

variable {rig : Rig} {d d' : Disk} {place : List String} {name : String}

theorem Beside.refl (h : rig.IsFresh d) : rig.Beside d d where
  cwd := rfl
  same _ _ := rfl
  plain := by
    rintro _ ⟨name, rfl⟩
    rw [h _ (List.cons_ne_nil _ _)]
    exact (Option.some_ne_none _).symm

/-- A name that ends otherwise is not that of a built form. -/
theorem not_isBuilt_concat (h : ¬"bc".toList <:+ name.toList) : ¬rig.IsBuilt (place ++ [name]) := by
  rintro ⟨other, heq⟩
  obtain rfl : name = other ++ "bc" := List.cons.inj (List.append_inj_right' heq rfl) |>.1
  exact h ⟨other.toList, by simp⟩

/-- What is on the way to a place that is in use is no built form, as there were none. -/
theorem not_isBuilt_of_prefix (h : rig.IsFresh d) (hplace : d.at? place ≠ none) {way : List String}
    (hway : way <+: place) : ¬rig.IsBuilt way := by
  rintro ⟨name, rfl⟩
  obtain ⟨rest, rfl⟩ := hway
  rw [List.append_assoc] at hplace
  exact hplace (h _ (List.cons_ne_nil _ _))

theorem Beside.read (h : rig.Beside d d') (hplace : IsPlace place) (hne : place ≠ [])
    (hway : ∀ way, way <+: place → ¬rig.IsBuilt way) :
    d'.read (ofParts place) = d.read (ofParts place) :=
  Disk.read_congr hplace hne fun way hfront => h.same way (hway way hfront)

/-- Above the folder for temporary files, and in its place, are no built forms. -/
theorem not_isBuilt_of_prefix_place {way : List String} (hway : way <+: rig.place) : ¬rig.IsBuilt way := by
  rintro ⟨name, rfl⟩
  have hlength := hway.length_le
  rw [List.length_append, List.length_singleton] at hlength
  omega

theorem not_isBuilt_of_prefix_concat {way : List String} (hname : ¬"bc".toList <:+ name.toList)
    (hplace : ∀ way, way <+: place → ¬rig.IsBuilt way) (hway : way <+: place ++ [name]) :
    ¬rig.IsBuilt way := by
  obtain rfl | hway := List.prefix_concat_iff.1 hway
  · exact not_isBuilt_concat hname
  · exact hplace way hway

theorem not_isBuilt_of_stored {file : String} (hfresh : rig.IsFresh d) (hfile : Suite.Stored d file place)
    {way : List String} (hway : way <+: place) : ¬rig.IsBuilt way := by
  obtain ⟨node, hnode, -⟩ := hfile.node
  exact not_isBuilt_of_prefix hfresh (by rw [hnode]; exact Option.some_ne_none _) hway

/-- A file that was there at the start is still the same. -/
theorem Beside.read_stored {file : String} (hfresh : rig.IsFresh d) (h : rig.Beside d d')
    (hfile : Suite.Stored d file place) : d'.read file = d.read file := by
  rw [hfile.eq]
  exact h.read hfile.isPlace hfile.ne_nil fun _ => not_isBuilt_of_stored hfresh hfile

/-- So is its record, whether there is one or not: its name is not that of a built form. -/
theorem Beside.read_golden {file : String} (hfresh : rig.IsFresh d) (h : rig.Beside d d')
    (hfile : Suite.Stored d file place) : d'.read (goldenPath file) = d.read (goldenPath file) := by
  obtain ⟨above, name, rfl, habove, hname, hbase⟩ := hfile.exists_name
  have hlast : ("." ++ name ++ ".json").toList.getLast? = some 'n' := by
    rw [String.toList_append, List.getLast?_append]
    rfl
  have hrecord : IsName ("." ++ name ++ ".json") :=
    isName_of_getLast? hlast (by decide) (by simpa using hname.2.2.2)
  have hpath : goldenPath file = ofParts (above ++ ["." ++ name ++ ".json"]) := by
    rw [goldenPath, hbase, hfile.eq, folder_ofParts habove hname, join_ofParts habove hrecord]
  rw [hpath]
  refine h.read (List.forall_mem_append.2 ⟨habove, by simpa using hrecord⟩) (by simp) fun way hway => ?_
  refine not_isBuilt_of_prefix_concat ?_ (fun way hway => ?_) hway
  · rintro ⟨front, heq⟩
    rw [← heq, List.getLast?_append] at hlast
    have hsame : 'c' = 'n' := Option.some.inj hlast
    exact absurd hsame (by decide)
  · exact not_isBuilt_of_stored hfresh hfile (hway.trans (List.prefix_append _ _))

/-- A path for a built form leads to the same place on both disks, or both refuse it. -/
theorem Beside.resolve (h : rig.Beside d d') (hplace : IsPlace (rig.place ++ [name])) :
    d'.resolve (ofParts (rig.place ++ [name])) = d.resolve (ofParts (rig.place ++ [name])) := by
  have hne : rig.place ++ [name] ≠ [] := by simp
  have hfollow : d'.follow [] (rig.place ++ [name]) = d.follow [] (rig.place ++ [name]) := by
    refine Disk.follow_congr hplace fun way hway hshort => h.same _ ?_
    obtain rfl | hway := List.prefix_concat_iff.1 hway
    · exact absurd rfl hshort
    · exact not_isBuilt_of_prefix_place hway
  rw [Disk.resolve_ofParts hplace hne, Disk.resolve_ofParts hplace hne, hfollow]

/-- A built form that can be placed on a disk can be written on one beside it, where it changes its own place only.
-/
theorem Beside.writes (h : rig.Beside d d') {goal : List String} (hplace : IsPlace (rig.place ++ [name ++ "bc"]))
    (hresolve : d.resolve (ofParts (rig.place ++ [name ++ "bc"])) = .ok goal) (content : List UInt8) :
    d'.write (ofParts (rig.place ++ [name ++ "bc"])) content
      = .ok (d'.put (rig.place ++ [name ++ "bc"]) (.file content)) := by
  have hne : rig.place ++ [name ++ "bc"] ≠ [] := by simp
  have hfollow : d.follow [] (rig.place ++ [name ++ "bc"]) = .ok goal := by
    rw [Disk.resolve_ofParts hplace hne] at hresolve
    split_ifs at hresolve
    exact hresolve
  obtain rfl := Disk.eq_append_of_follow hplace hfollow
  have hfolder : d.at? rig.place = some .folder := Disk.folder_of_follow hplace hfollow
  refine Disk.write_of_resolve ((h.resolve hplace).trans hresolve) (h.plain _ ⟨name, rfl⟩) ?_ content
  rw [List.nil_append, List.dropLast_concat, h.same _ (not_isBuilt_of_prefix_place (List.prefix_refl _)),
    hfolder]

/-- Two disks that differ in built forms only both take a built form or both refuse it. -/
theorem Beside.write_cases (hfresh : rig.IsFresh d) (h : rig.Beside d d')
    (hplace : IsPlace (rig.place ++ [name ++ "bc"])) (content : List UInt8) :
    (∃ e e', d.write (ofParts (rig.place ++ [name ++ "bc"])) content = .ok e ∧
        d'.write (ofParts (rig.place ++ [name ++ "bc"])) content = .ok e') ∨
      ∃ e, d.write (ofParts (rig.place ++ [name ++ "bc"])) content = .error e ∧
        d'.write (ofParts (rig.place ++ [name ++ "bc"])) content = .error e := by
  cases hresolve : d.resolve (ofParts (rig.place ++ [name ++ "bc"])) with
  | ok goal => exact .inl ⟨_, _, (refl hfresh).writes hplace hresolve content, h.writes hplace hresolve content⟩
  | error cause =>
      refine .inr ⟨⟨"open", ofParts (rig.place ++ [name ++ "bc"]), cause⟩, ?_, ?_⟩
      · rw [Disk.write, hresolve]
        rfl
      · rw [Disk.write, h.resolve hplace, hresolve]
        rfl

/-- What is written in the place of a built form is a built form. -/
theorem Beside.written {d'' : Disk} {content : List UInt8} (h : rig.Beside d d')
    (hplace : IsPlace (rig.place ++ [name ++ "bc"]))
    (hwrite : d'.write (ofParts (rig.place ++ [name ++ "bc"])) content = .ok d'') :
    rig.Beside d d'' ∧ ∀ other, other ≠ name → IsPlace (rig.place ++ [other ++ "bc"]) →
      d''.read (ofParts (rig.place ++ [other ++ "bc"])) = d'.read (ofParts (rig.place ++ [other ++ "bc"])) := by
  obtain ⟨goal, hresolve, -, -⟩ := Disk.write_ok hwrite
  rw [h.resolve hplace] at hresolve
  obtain rfl := Except.ok.inj ((h.writes hplace hresolve content).symm.trans hwrite)
  refine ⟨⟨h.cwd, fun place hbuilt => ?_, fun place hbuilt => ?_⟩, fun other hother hplace' => ?_⟩
  · rw [Disk.at?_put_of_ne fun heq => hbuilt ⟨name, heq⟩]
    exact h.same place hbuilt
  · by_cases heq : place = rig.place ++ [name ++ "bc"]
    · rw [heq, Disk.at?_put_self (by simp)]
      exact fun h => Node.noConfusion (Option.some.inj h)
    · rw [Disk.at?_put_of_ne heq]
      exact h.plain place hbuilt
  · refine Disk.read_congr hplace' (by simp) fun way hway => Disk.at?_put_of_ne ?_
    rintro rfl
    have hsame := hway.eq_of_length (by simp)
    have hnames : name ++ "bc" = other ++ "bc" := List.cons.inj (List.append_inj_right' hsame rfl) |>.1
    exact hother (String.append_left_inj "bc" |>.1 hnames).symm

end Rig

/-! ### Actions and disks -/

def Session.on (s : Session) (d : Disk) : Session := { s with disk := d }

namespace Act

variable {α β : Type} {d d' : Disk}

/-- An action does the same on two disks and changes neither. -/
def Reads (d d' : Disk) (a : Act α) : Prop :=
  ∀ s : Session, ∃ r t, a (s.on d) = (r, Session.on t d) ∧ a (s.on d') = (r, Session.on t d')

namespace Reads

theorem pure (a : α) : Reads d d' (Pure.pure a) := fun s => ⟨.ok a, s, rfl, rfl⟩

theorem throw (e : Failure) : Reads d d' (throwThe Failure e : Act α) := fun s => ⟨.error e, s, rfl, rfl⟩

theorem bind {a : Act α} {f : α → Act β} (ha : Reads d d' a) (hf : ∀ x, Reads d d' (f x)) :
    Reads d d' (a >>= f) := by
  intro s
  obtain ⟨r, t, h, h'⟩ := ha s
  rw [bind_apply, bind_apply, h, h']
  cases r with
  | error e => exact ⟨.error e, t, rfl, rfl⟩
  | ok x => exact hf x t

theorem get_bind {f : Session → Act α} (hsame : ∀ s : Session, f (s.on d') = f (s.on d))
    (hf : ∀ s : Session, Reads d d' (f (s.on d))) : Reads d d' (get >>= f) := by
  intro s
  obtain ⟨r, t, h, h'⟩ := hf s s
  refine ⟨r, t, ?_, ?_⟩
  · rw [bind_apply, get_apply]
    exact h
  · rw [bind_apply, get_apply]
    exact (congrFun (hsame s) _).trans h'

theorem modify {f : Session → Session} (hf : ∀ (s : Session) (d : Disk), f (s.on d) = (f s).on d) :
    Reads d d' (modify f : Act Unit) :=
  fun s => ⟨.ok (), f s, congrArg (Prod.mk _) (hf s d), congrArg (Prod.mk _) (hf s d')⟩

theorem ite {c : Prop} [Decidable c] {a b : Act α} (ha : Reads d d' a) (hb : Reads d d' b) :
    Reads d d' (if c then a else b) := by
  split_ifs
  · exact ha
  · exact hb

theorem print (text : String) : Reads d d' (print text) := modify fun _ _ => rfl

theorem printError (text : String) : Reads d d' (printError text) := modify fun _ _ => rfl

theorem log (e : LogEntry) : Reads d d' (log e) :=
  get_bind (fun _ => rfl) fun _ => ite (printError _) (pure _)

theorem fail (message : String) : Reads d d' (fail message : Act α) := throw _

theorem orFail {ε : Type} (message : ε → String) (r : Except ε α) : Reads d d' (orFail message r) := by
  cases r with
  | error e => exact fail _
  | ok a => exact pure a

theorem showEvents (sources : Sources) (events : List Event) : Reads d d' (showEvents sources events) := by
  induction events with
  | nil => exact pure _
  | cons event rest ih =>
      cases event with
      | logged e => exact bind (log e) fun _ => ih
      | noticed n => exact get_bind (fun _ => rfl) fun _ => ite (bind (printError _) fun _ => ih) ih

theorem take (sources : Sources) (c : Compiled α) : Reads d d' (take sources c) := by
  refine bind (showEvents sources c.events) fun _ => ?_
  cases c.result with
  | ok a => exact pure a
  | error e =>
      simp only [failCompile]
      cases e.diagnostic? with
      | none => exact throw _
      | some d => exact throw _

theorem logAll (entries : List LogEntry) : Reads d d' (CompilerTool.logAll entries) := by
  induction entries with
  | nil => exact pure _
  | cons e rest ih => exact bind (log e) fun _ => ih

/-- Running a program does the same on any two disks and changes neither. -/
theorem execute (limit : Nat) (p : Program) : Reads d d' (CompilerTool.execute limit p) := by
  refine get_bind (fun _ => rfl) fun s => ?_
  dsimp only
  cases Machine.new p with
  | error f => exact throw _
  | ok start =>
      refine bind (logAll _) fun _ => ?_
      cases (start.1.run (s.on d).settings.trace (s.on d).settings.leakCheck limit start.2).ending with
      | faulty f => exact throw _
      | unfinished final => exact throw _
      | halted error final =>
          refine bind (print _) fun _ => ?_
          cases error with
          | none => exact pure _
          | some e => exact fail _

end Reads

/-- Two performances of an action that does the same on their disks. -/
theorem Reads.perform {a : Act Unit} (h : Reads d d' a) :
    (a.perform d').status = (a.perform d).status ∧ (a.perform d').out = (a.perform d).out ∧
      (a.perform d').err = (a.perform d).err ∧ (a.perform d').disk = d' := by
  obtain ⟨r, t, hd, hd'⟩ := h { disk := d }
  have hrun : ∀ e : Disk, a (Session.on { disk := d } e) = (r, t.on e) →
      a.run.run { disk := e } = (r, t.on e) := fun _ he => he
  rw [Act.perform, Act.perform, hrun d hd, hrun d' hd']
  dsimp only
  cases r with
  | ok u => exact ⟨rfl, rfl, rfl, rfl⟩
  | error e =>
      cases e with
      | told text | misused | crashed message | cutOff => exact ⟨rfl, rfl, rfl, rfl⟩

end Act

namespace CompilerTool

open Act

variable {d d' : Disk} {limit : Nat} {env : Environment} {f : FlagSet} {path : String}

/-- The settings for a path are the same on two disks. -/
def SameSettings (d d' : Disk) (path : String) : Prop :=
  ∀ s : Settings, s.find d' (Path.folder path) = s.find d (Path.folder path)

/-- The settings are found alike on two disks on which they are the same. -/
theorem configure_reads (h : SameSettings d d' path) : Reads d d' (configure env f path) := by
  refine .get_bind (fun s => ?_) fun s => ?_
  · dsimp only [Session.on]
    rw [h]
  · dsimp only [Session.on]
    cases (s.settings.find d (Path.folder path)).error with
    | some e => exact .fail _
    | none =>
        refine .bind (.modify fun _ _ => rfl) fun _ => ?_
        have hshow : Reads d d'
            (if f.isOn "show-config" then get >>= fun s => Act.printError s.settings.describe else pure ()) :=
          .ite (.get_bind (fun _ => rfl) fun _ => .printError _) (.pure _)
        cases (s.settings.find d (Path.folder path)).path with
        | none => exact hshow
        | some loaded => exact .bind (.log _) fun _ => hshow

theorem readSource_reads (h : d'.read path = d.read path) : Reads d d' (readSource path) := by
  refine .get_bind (fun s => ?_) fun s => .orFail _ _
  dsimp only [Session.on]
  rw [Disk.readSource, Disk.readSource, h]

theorem run_reads (hsettings : SameSettings d d' path) (hread : d'.read path = d.read path)
    (hcache : f.isOn "cache" = false) : Reads d d' (perform limit env f "run" [path]) := by
  have hperform : perform limit env f "run" [path] = configure env f path >>= fun _ => run limit f path := by
    simp only [perform, oneFile, bind_assoc, pure_bind]
  rw [hperform]
  refine .bind (configure_reads hsettings) fun _ => .bind (readSource_reads hread) fun source => ?_
  refine .get_bind (fun s => ?_) fun s => ?_
  · rw [hcache]
    rfl
  · rw [hcache]
    exact .bind (.take _ _) fun p => .execute limit p

theorem exec_reads (hsettings : SameSettings d d' path) (hread : d'.read path = d.read path) :
    Reads d d' (perform limit env f "exec" [path]) := by
  have hperform : perform limit env f "exec" [path] = configure env f path >>= fun _ => exec limit path := by
    simp only [perform, oneFile, bind_assoc, pure_bind]
  rw [hperform]
  refine .bind (configure_reads hsettings) fun _ => .get_bind (fun s => ?_) fun s => ?_
  · dsimp only [Session.on]
    rw [Disk.loadProgram, Disk.loadProgram, hread]
  · exact .bind (.orFail _ _) fun p => .execute limit p

/-- Building up to the point where the program is stored. -/
def produce (env : Environment) (f : FlagSet) (path : String) : Act Program := do
  configure env f path
  let source ← readSource path
  Act.take [⟨path, source⟩] (Compilation.compiled (← get).settings path source)

theorem produce_reads (hsettings : SameSettings d d' path) (hread : d'.read path = d.read path) :
    Reads d d' (produce env f path) :=
  .bind (configure_reads hsettings) fun _ => .bind (readSource_reads hread) fun _ =>
    .get_bind (fun _ => rfl) fun _ => .take _ _

theorem perform_build (hout : f.textOf "output" ≠ "") :
    perform limit env f "build" [path] = produce env f path >>= save (f.textOf "output") := by
  simp only [perform, oneFile, produce, build, bind_assoc, pure_bind, if_neg hout]

theorem save_ok {out : String} {p : Program} (h : d.write out p.toBytes = .ok d') (s : Session) :
    save out p (s.on d) = (.ok (), s.on d') := by
  rw [save, bind_apply, get_apply]
  dsimp only [Session.on]
  rw [bind_apply, Disk.saveProgram, h]
  rfl

theorem save_error {out : String} {p : Program} {e : DiskError} (h : d.write out p.toBytes = .error e)
    (s : Session) : save out p (s.on d) = (.error (.told (plainReport e.message)), s.on d) := by
  rw [save, bind_apply, get_apply]
  dsimp only [Session.on]
  rw [bind_apply, Disk.saveProgram, h]
  rfl

/-- Building on two disks of which either both take the built program or both refuse it. -/
theorem build_perform (hout : f.textOf "output" ≠ "") (hsettings : SameSettings d d' path)
    (hread : d'.read path = d.read path)
    (hwrite : ∀ content, (∃ e e', d.write (f.textOf "output") content = .ok e ∧
        d'.write (f.textOf "output") content = .ok e') ∨
      ∃ e, d.write (f.textOf "output") content = .error e ∧
        d'.write (f.textOf "output") content = .error e) :
    let o := (perform limit env f "build" [path]).perform d
    let o' := (perform limit env f "build" [path]).perform d'
    o'.status = o.status ∧ o'.out = o.out ∧ o'.err = o.err ∧
      ((o.status ≠ .exited 0 ∧ o'.disk = d') ∨
        ∃ content, d.write (f.textOf "output") content = .ok o.disk ∧
          d'.write (f.textOf "output") content = .ok o'.disk) := by
  obtain ⟨r, t, h, h'⟩ := @produce_reads d d' env f path hsettings hread { disk := d }
  have hrun : ∀ e : Disk, produce env f path (Session.on { disk := d } e) = (r, t.on e) →
      (perform limit env f "build" [path]).run.run { disk := e }
        = (produce env f path >>= save (f.textOf "output")) (Session.on { disk := d } e) := by
    intro e _
    rw [perform_build hout]
    rfl
  dsimp only
  rw [Act.perform, Act.perform, hrun d h, hrun d' h', bind_apply, bind_apply, h, h']
  cases r with
  | error e =>
      cases e with
      | told text | misused | crashed message | cutOff =>
          exact ⟨rfl, rfl, rfl, .inl ⟨by simp, rfl⟩⟩
  | ok p =>
      dsimp only
      obtain ⟨e, e', he, he'⟩ | ⟨e, he, he'⟩ := hwrite p.toBytes
      · rw [save_ok he t, save_ok he' t]
        exact ⟨rfl, rfl, rfl, .inr ⟨p.toBytes, he, he'⟩⟩
      · rw [save_error he t, save_error he' t]
        exact ⟨rfl, rfl, rfl, .inl ⟨by simp, rfl⟩⟩

/-! ### The command line of the compiler -/

/-- What the compiler needs to know of its flags before any is given: no help is asked for, there is no
cache, and a letter stands for the flag that takes the path of the built program. -/
structure Ready (f : FlagSet) : Prop where
  help : f.isOn "help" = false
  cache : f.isOn "cache" = false
  output : ∃ flag, f.findShorthand? 'o' = some flag ∧ f.find? "output" = some flag ∧
    flag.name = "output" ∧ flag.value = .text ""

/-- The flags of the compiler can all be defined, along with the one that asks for help. -/
theorem exists_flags : ∃ f g, flags = .ok f ∧ f.define App.helpFlag = .ok g ∧ Ready g := by
  have hflags : (flags.bind (·.define App.helpFlag)).toOption.any (fun g =>
      !g.isOn "help" && !g.isOn "cache" && decide (g.findShorthand? 'o' = g.find? "output") &&
        (g.find? "output").any fun flag => decide (flag.name = "output" ∧ flag.value = .text "")) = true := by
    decide +kernel
  cases hf : flags with
  | error e =>
      rw [hf] at hflags
      cases hflags
  | ok f =>
      rw [hf] at hflags
      cases hg : f.define App.helpFlag with
      | error e =>
          simp only [Except.bind, hg] at hflags
          cases hflags
      | ok g =>
          simp only [Except.bind, hg, Except.toOption, Option.any_some, Bool.and_eq_true,
            Bool.not_eq_true', decide_eq_true_eq] at hflags
          obtain ⟨⟨⟨hhelp, hcache⟩, hletter⟩, houtput⟩ := hflags
          obtain ⟨flag, hflag, hname⟩ := (Option.any_eq_true _ _).1 houtput
          obtain ⟨hname, hvalue⟩ := of_decide_eq_true hname
          exact ⟨f, g, rfl, hg, hhelp, hcache, flag, hletter.trans hflag, hflag, hname, hvalue⟩

/-- Arguments that are understood lead to the command that they name. -/
theorem obey_of_parse {years : String} {arguments rest : List String} {g g' : FlagSet} {command : String}
    (hf : flags = .ok f) (hg : f.define App.helpFlag = .ok g) (hparse : g.parse arguments = (g', none))
    (hhelp : g'.isOn "help" = false) (hargs : g'.args = command :: rest)
    (hcommand : (app.command? command).map (·.name) = some command) :
    obey years limit env arguments = perform limit env g' command rest := by
  obtain ⟨c, hc, rfl⟩ := Option.map_eq_some_iff.1 hcommand
  have hrequest : app.request f arguments = .ok (g', .run c rest) := by
    rw [App.request, hg]
    simp only [bind, Except.bind, hparse, hhelp, hargs, List.head?_cons, Option.bind_some, hc, List.tail_cons]
    rfl
  rw [obey, hf]
  dsimp only
  rw [hrequest]

theorem obey_two (years command : String) {file : String}
    (hcommand : (app.command? command).map (·.name) = some command)
    (hdash : command.toList.head? ≠ some '-') (hfile : file.toList.head? ≠ some '-') :
    ∃ f, obey years limit env [command, file] = perform limit env f command [file] ∧
      f.isOn "cache" = false := by
  obtain ⟨f, g, hf, hg, hready⟩ := exists_flags
  have hparse : g.parse [command, file] = ({ g with args := [command, file] }, none) := by
    rw [FlagSet.parse, FlagSet.parseMore_positional (FlagSet.read_positional _ hdash),
      FlagSet.parseMore_positional (FlagSet.read_positional _ hfile)]
    rfl
  exact ⟨_, obey_of_parse hf hg hparse hready.help rfl hcommand, hready.cache⟩

theorem isOn_update {name other : String} {change : Flag → Flag}
    (hchange : ∀ flag, (change flag).name = flag.name) (h : other ≠ name) :
    (f.update name change).isOn other = f.isOn other := by
  have hfind : (f.update name change).find? other = f.find? other := by
    rw [FlagSet.find?_update hchange]
    cases hflag : f.find? other with
    | none => rfl
    | some flag => rw [Option.map_some, if_neg (FlagSet.name_of_find? hflag ▸ h)]
  rw [FlagSet.isOn, FlagSet.isOn, hfind]

theorem read_letter {flag : Flag} (h : f.findShorthand? 'o' = some flag) (hvalue : flag.value = .text "") :
    f.read "-o" = .wants flag.name "-o" := by
  have hshort : f.read "-o" = f.readShort 'o' [] := rfl
  rw [hshort, FlagSet.readShort, h]
  dsimp only
  rw [hvalue]
  rfl

/-- The command line of a build is understood: the file is to be built into the given place. -/
theorem obey_build (years out : String) {file : String} (hfile : file.toList.head? ≠ some '-') :
    ∃ f, obey years limit env ["build", "-o", out, file] = perform limit env f "build" [file] ∧
      f.textOf "output" = out := by
  obtain ⟨f, g, hf, hg, hready⟩ := exists_flags
  obtain ⟨flag, hletter, hflag, hname, hvalue⟩ := hready.output
  let change : Flag → Flag := fun flag => { flag with given := true, value := .text out }
  have hset : ∀ args, FlagSet.set { g with args } "output" out
      = (FlagSet.update { g with args } "output" change, none) := by
    intro args
    rw [FlagSet.set, show FlagSet.find? { g with args } "output" = some flag from hflag]
    dsimp only
    rw [hvalue]
    rfl
  have hread : ∀ args, FlagSet.read { g with args } "-o" = .wants "output" "-o" := by
    intro args
    rw [← hname]
    exact read_letter hletter hvalue
  have hparse : g.parse ["build", "-o", out, file]
      = ({ g.update "output" change with args := ["build", file] }, none) := by
    rw [FlagSet.parse, FlagSet.parseMore_positional (FlagSet.read_positional _ (by decide)),
      FlagSet.parseMore_valued (hread _) (hset _),
      FlagSet.parseMore_positional (FlagSet.read_positional _ hfile)]
    rfl
  have hchange : ∀ flag, (change flag).name = flag.name := fun _ => rfl
  have hhelp : (g.update "output" change).isOn "help" = false :=
    (isOn_update hchange (by decide)).trans hready.help
  have hfind : (g.update "output" change).find? "output" = some (change flag) := by
    rw [FlagSet.find?_update hchange, hflag, Option.map_some, if_pos hname]
  have hcommand : (app.command? "build").map (·.name) = some "build" := by decide
  refine ⟨_, obey_of_parse hf hg hparse hhelp rfl hcommand, ?_⟩
  rw [FlagSet.textOf, show FlagSet.find? { g.update "output" change with args := ["build", file] } "output"
    = some (change flag) from hfind]

end CompilerTool

/-! ### The compiler under test -/

/-- Disks that agree on the settings files on the way to the root have the same settings. -/
theorem Settings.findFrom_congr {d d' : Disk} {folder : List String}
    (h : ∀ way, way <:+ folder →
      d'.lookup (ofParts (way.reverse ++ [fileName])) = d.lookup (ofParts (way.reverse ++ [fileName])))
    (s : Settings) : s.findFrom d' folder = s.findFrom d folder := by
  induction folder with
  | nil =>
      have hlookup := h [] List.suffix_rfl
      rw [findFrom, findFrom, Disk.stat, Disk.stat, load, load, Disk.read, Disk.read, hlookup]
  | cons last above ih =>
      have hlookup := h (last :: above) List.suffix_rfl
      have habove := ih fun way hway => h way (hway.trans (List.suffix_cons last above))
      rw [findFrom, findFrom, Disk.stat, Disk.stat, load, load, Disk.read, Disk.read, hlookup, habove]

/-- Built forms are no settings files, so two disks that differ in them have the same settings. -/
theorem Rig.Beside.sameSettings {rig : Rig} {d d' : Disk} {place : List String} {name : String}
    (h : rig.Beside d d') (hplace : IsPlace place) (hname : IsName name)
    (hway : ∀ way, way <+: place → ¬rig.IsBuilt way) :
    CompilerTool.SameSettings d d' (ofParts (place ++ [name])) := by
  intro s
  rw [Settings.find, Settings.find, folder_ofParts hplace hname, absolute_ofParts _ hplace,
    absolute_ofParts _ hplace]
  refine Settings.findFrom_congr (fun way hsuffix => ?_) s
  have hfront : way.reverse <+: place := by simpa using List.reverse_prefix.2 hsuffix
  refine Disk.lookup_congr ?_ (by simp) fun other hother => h.same other ?_
  · intro part hpart
    obtain hpart | hpart := List.mem_append.1 hpart
    · exact hplace part (hfront.subset hpart)
    · rw [List.mem_singleton.1 hpart]
      exact ⟨by decide, by decide, by decide, by decide⟩
  · exact not_isBuilt_of_prefix_concat (by decide) (fun way hway' => hway way (hway'.trans hfront)) hother

namespace TesterTool

variable {years : String} {env : Environment} {binary : String} {timeout : Duration} {d d' : Disk}
  {arguments : List String}

theorem locate_eq_ok : locate d binary = .ok () ↔
    binary.toList.contains '/' = true ∧ d.lookup binary = .ok .program := by
  unfold locate
  split_ifs with hslash
  · simp_all
  · cases hlookup : d.lookup binary with
    | error cause => simp
    | ok node => cases node <;> simp_all

/-- The compiler lies elsewhere, so it is found whatever has been built. -/
theorem locate_beside {rig : Rig} (hfresh : rig.IsFresh d) (h : rig.Beside d d')
    (hlocate : locate d binary = .ok ()) : locate d' binary = .ok () := by
  obtain ⟨hslash, hlookup⟩ := locate_eq_ok.1 hlocate
  refine locate_eq_ok.2 ⟨hslash, ?_⟩
  have hused : ∀ place, d.at? place ≠ none → d'.at? place = d.at? place := fun place hplace =>
    h.same place (Rig.not_isBuilt_of_prefix hfresh hplace (List.prefix_refl _))
  have hfolders : ∀ place, d.at? place = some .folder → d'.at? place = some .folder := by
    intro place hplace
    rw [hused place (by rw [hplace]; exact Option.some_ne_none _), hplace]
  cases hresolve : d.resolve binary with
  | error cause =>
      rw [Disk.lookup, hresolve] at hlookup
      cases hlookup
  | ok place =>
      have hresolve' : d'.resolve binary = .ok place := by
        rw [Disk.resolve] at hresolve ⊢
        split_ifs at hresolve ⊢
        · exact Disk.follow_of_folders hfolders hresolve
        · rw [h.cwd]
          exact Disk.follow_of_folders hfolders hresolve
      have hnode : d.at? place ≠ none := by
        intro hnone
        rw [Disk.lookup, hresolve] at hlookup
        simp only [bind, Except.bind, hnone] at hlookup
        cases hlookup
      rw [Disk.lookup, hresolve']
      rw [Disk.lookup, hresolve] at hlookup
      simp only [bind, Except.bind, hused place hnode] at hlookup ⊢
      exact hlookup

/-- Either there is no time for the compiler at all, or it is started wherever it lies. -/
theorem start_cases (years : String) (env : Environment) (binary : String) (timeout : Duration) :
    (∀ d arguments, start years env binary timeout d arguments = ({ exitCode := -1, timedOut := true }, d)) ∨
      ∃ limit, ∀ d arguments, locate d binary = .ok () → start years env binary timeout d arguments =
        (executionOf (CompilerTool.start years limit env d arguments),
          (CompilerTool.start years limit env d arguments).disk) := by
  by_cases htime : (timeout.nanos / 1000000).toNat ≤ startingTime
  · exact .inl fun d arguments => if_pos htime
  · refine .inr ⟨(timeout.nanos / 1000000).toNat * stepsPerMillisecond, fun d arguments hlocate => ?_⟩
    rw [start, if_neg htime, hlocate]

theorem start_reads (hlocate : locate d binary = .ok ()) (hlocate' : locate d' binary = .ok ())
    (h : ∀ limit, Act.Reads d d' (CompilerTool.obey years limit env arguments)) :
    start years env binary timeout d' arguments = ((start years env binary timeout d arguments).1, d') := by
  obtain hnone | ⟨limit, hstart⟩ := start_cases years env binary timeout
  · rw [hnone, hnone]
  · obtain ⟨hstatus, hout, herr, hdisk⟩ := (h limit).perform
    rw [hstart _ _ hlocate, hstart _ _ hlocate', CompilerTool.start, CompilerTool.start, executionOf,
      executionOf, hstatus, hout, herr, hdisk]

/-- A build does the same on two disks with the same source and settings on which its output can be written. -/
theorem start_build {path out : String} (hlocate : locate d binary = .ok ())
    (hlocate' : locate d' binary = .ok ()) (hout : out ≠ "")
    (hobey : ∀ limit, ∃ f, CompilerTool.obey years limit env arguments
      = CompilerTool.perform limit env f "build" [path] ∧ f.textOf "output" = out)
    (hsettings : CompilerTool.SameSettings d d' path) (hread : d'.read path = d.read path)
    (hwrite : ∀ content, (∃ e e', d.write out content = .ok e ∧ d'.write out content = .ok e') ∨
      ∃ e, d.write out content = .error e ∧ d'.write out content = .error e) :
    (start years env binary timeout d' arguments).1 = (start years env binary timeout d arguments).1 ∧
      (((start years env binary timeout d arguments).1.exitCode ≠ 0 ∧
          (start years env binary timeout d' arguments).2 = d') ∨
        ∃ content, d.write out content = .ok (start years env binary timeout d arguments).2 ∧
          d'.write out content = .ok (start years env binary timeout d' arguments).2) := by
  obtain hnone | ⟨limit, hstart⟩ := start_cases years env binary timeout
  · rw [hnone, hnone]
    exact ⟨rfl, .inl ⟨by simp, rfl⟩⟩
  · obtain ⟨f, hperform, rfl⟩ := hobey limit
    obtain ⟨hstatus, hprinted, herr, hdisk⟩ := @CompilerTool.build_perform d d' limit env f path hout hsettings
      hread hwrite
    rw [hstart _ _ hlocate, hstart _ _ hlocate', CompilerTool.start, CompilerTool.start, hperform]
    refine ⟨?_, hdisk.imp_left fun ⟨hcode, hdisk⟩ => ⟨?_, hdisk⟩⟩
    · rw [executionOf, executionOf, hstatus, hprinted, herr]
    · dsimp only
      rw [executionOf]
      split
      · rename_i code hexited
        rw [hexited] at hcode
        simpa using hcode
      · simp

theorem isPlace_folder : IsPlace folder := by
  intro part hpart
  simp only [folder, List.mem_cons, List.not_mem_nil, or_false] at hpart
  obtain rfl | rfl := hpart
  · exact ⟨by decide, by decide, by decide, by decide⟩
  · exact ⟨by decide, by decide, by decide, by decide⟩

section Rig

variable {f : FlagSet} {file patterns : String} {files place : List String}

theorem place_rigOf (years : String) (env : Environment) (f : FlagSet) :
    (rigOf years env f).place = folder :=
  absolute_ofParts [] isPlace_folder

theorem isName_compiled {name : String} (h : IsName name) : IsName (name ++ "bc") := by
  have hlast : (name ++ "bc").toList.getLast? = some 'c' := by simp
  exact isName_of_getLast? hlast (by decide) (by simpa using h.2.2.2)

theorem isPlace_compiled {name : String} (h : IsName name) :
    IsPlace ((rigOf years env f).place ++ [name ++ "bc"]) := by
  rw [place_rigOf]
  intro part hpart
  obtain hpart | hpart := List.mem_append.1 hpart
  · exact isPlace_folder part hpart
  · rw [List.mem_singleton.1 hpart]
    exact isName_compiled h

theorem compiledPath_rigOf {name : String} (hbase : base file = name) (hname : IsName name) :
    (rigOf years env f).compiledPath file = ofParts ((rigOf years env f).place ++ [name ++ "bc"]) := by
  rw [Rig.compiledPath, hbase, place_rigOf]
  exact join_ofParts isPlace_folder (isName_compiled hname)

theorem head?_ofParts_ne (place : List String) : (ofParts place).toList.head? ≠ some '-' := by
  rw [head?_ofParts]
  decide

/-- Files that are about to be tested with the compiler: it is installed, no arguments are added to those
of its commands, and nothing has been built. -/
structure Prepared (years : String) (env : Environment) (f : FlagSet) (d : Disk) (patterns : String)
    (files : List String) : Prop where
  cwd : IsPlace d.cwd
  fresh : (rigOf years env f).IsFresh d
  extra : Text.words (f.textOf "binary-args") = []
  located : locate d (f.textOf "binary") = .ok ()
  files : Suite.files d patterns = .ok files

namespace Prepared

theorem extra_append (h : Prepared years env f d patterns files) (more : List String) :
    (rigOf years env f).extra ++ more = more := by
  rw [show (rigOf years env f).extra = [] from h.extra, List.nil_append]

/-- What holds of a file on a disk with other built forms. -/
theorem of_mem (h : Prepared years env f d patterns files) (hmem : file ∈ files)
    (hbeside : (rigOf years env f).Beside d d') :
    ∃ place, file = ofParts place ∧ IsName (base file) ∧ CompilerTool.SameSettings d d' file ∧
      d'.read file = d.read file := by
  obtain ⟨place, hplace⟩ := (Suite.files_stored h.cwd h.files).2 file hmem
  obtain ⟨above, name, rfl, habove, hname, hbase⟩ := hplace.exists_name
  refine ⟨above ++ [name], hplace.eq, hbase ▸ hname, ?_, hbeside.read_stored h.fresh hplace⟩
  rw [hplace.eq]
  exact hbeside.sameSettings habove hname fun way hfront =>
    Rig.not_isBuilt_of_stored h.fresh hplace (hfront.trans (List.prefix_append _ _))

theorem compiledPath (h : Prepared years env f d patterns files) (hmem : file ∈ files) :
    (rigOf years env f).compiledPath file = ofParts ((rigOf years env f).place ++ [base file ++ "bc"]) := by
  obtain ⟨-, -, hname, -⟩ := h.of_mem hmem (.refl h.fresh)
  exact compiledPath_rigOf rfl hname

theorem run (h : Prepared years env f d patterns files) (hmem : file ∈ files)
    (hbeside : (rigOf years env f).Beside d d') :
    (rigOf years env f).run d' file = (((rigOf years env f).run d file).1, d') := by
  obtain ⟨place, rfl, -, hsettings, hread⟩ := h.of_mem hmem hbeside
  rw [Rig.run, Rig.run, h.extra_append]
  refine start_reads h.located (locate_beside h.fresh hbeside h.located) fun limit => ?_
  obtain ⟨g, hobey, hcache⟩ :=
    CompilerTool.obey_two years "run" (by decide) (by decide) (head?_ofParts_ne place)
  rw [hobey]
  exact CompilerTool.run_reads hsettings hread hcache

/-- What was built is run alike on two disks that agree on it. -/
theorem exec {d'' : Disk} (h : Prepared years env f d patterns files) (hmem : file ∈ files)
    (hbeside : (rigOf years env f).Beside d d') (hbeside' : (rigOf years env f).Beside d d'')
    (hcontent : d'.read ((rigOf years env f).compiledPath file)
      = d''.read ((rigOf years env f).compiledPath file)) :
    (rigOf years env f).exec d' file = (((rigOf years env f).exec d'' file).1, d') := by
  obtain ⟨-, -, hname, -⟩ := h.of_mem hmem hbeside
  rw [Rig.exec, Rig.exec, h.extra_append]
  rw [h.compiledPath hmem] at hcontent ⊢
  refine start_reads (locate_beside h.fresh hbeside' h.located) (locate_beside h.fresh hbeside h.located)
    fun limit => ?_
  obtain ⟨g, hobey, -⟩ := CompilerTool.obey_two years "exec" (by decide) (by decide) (head?_ofParts_ne _)
  rw [hobey]
  have hplace : IsPlace (rigOf years env f).place := by
    rw [place_rigOf]
    exact isPlace_folder
  have hsettings : ∀ {e : Disk}, (rigOf years env f).Beside d e → CompilerTool.SameSettings d e
      (ofParts ((rigOf years env f).place ++ [base file ++ "bc"])) := fun he =>
    he.sameSettings hplace (isName_compiled hname) fun _ => Rig.not_isBuilt_of_prefix_place
  exact CompilerTool.exec_reads (fun s => (hsettings hbeside s).trans (hsettings hbeside' s).symm) hcontent

/-- A program is built alike on two disks that differ in built forms only. -/
theorem build (h : Prepared years env f d patterns files) (hmem : file ∈ files)
    (hbeside : (rigOf years env f).Beside d d') :
    ((rigOf years env f).build d' file).1 = ((rigOf years env f).build d file).1 ∧
      ((((rigOf years env f).build d file).1.exitCode ≠ 0 ∧ ((rigOf years env f).build d' file).2 = d') ∨
        ∃ content, d.write ((rigOf years env f).compiledPath file) content
            = .ok ((rigOf years env f).build d file).2 ∧
          d'.write ((rigOf years env f).compiledPath file) content
            = .ok ((rigOf years env f).build d' file).2) := by
  obtain ⟨place, hpath, hname, hsettings, hread⟩ := h.of_mem hmem hbeside
  have hout : (rigOf years env f).compiledPath file ≠ "" := by
    rw [h.compiledPath hmem, ← String.toList_inj.ne, ofParts]
    simp
  rw [Rig.build, Rig.build, h.extra_append]
  refine start_build h.located (locate_beside h.fresh hbeside h.located) hout (fun limit => ?_) hsettings hread ?_
  · exact CompilerTool.obey_build years _ (hpath ▸ head?_ofParts_ne place)
  · rw [h.compiledPath hmem]
    exact Rig.Beside.write_cases h.fresh hbeside (isPlace_compiled hname)

end Prepared

/-- The compiler keeps to itself. -/
theorem rigOf_contained (h : Prepared years env f d patterns files) :
    (rigOf years env f).Contained d files := by
  constructor
  case run => exact fun hbeside hmem => h.run hmem hbeside
  case build => exact fun hbeside hmem => (h.build hmem hbeside).1
  case build_beside =>
    intro d' file hbeside hmem
    obtain ⟨-, -, hname, -⟩ := h.of_mem hmem hbeside
    obtain ⟨-, hdisk⟩ | ⟨content, -, hwrite⟩ := (h.build hmem hbeside).2
    · rw [hdisk]
      exact hbeside
    · rw [h.compiledPath hmem] at hwrite
      exact (hbeside.written (isPlace_compiled hname) hwrite).1
  case build_content =>
    intro d' file hbeside hmem hcode
    obtain ⟨hfailed, -⟩ | ⟨content, hwrite, hwrite'⟩ := (h.build hmem hbeside).2
    · exact absurd hcode hfailed
    · rw [Disk.read_of_write hwrite, Disk.read_of_write hwrite']
  case build_other =>
    intro d' file other hbeside hmem hother hbase
    obtain ⟨-, -, hname, -⟩ := h.of_mem hmem hbeside
    obtain ⟨-, -, hname', -⟩ := h.of_mem hother hbeside
    obtain ⟨-, hdisk⟩ | ⟨content, -, hwrite⟩ := (h.build hmem hbeside).2
    · rw [hdisk]
    · rw [h.compiledPath hmem] at hwrite
      rw [h.compiledPath hother]
      exact (hbeside.written (isPlace_compiled hname) hwrite).2 _ hbase (isPlace_compiled hname')
  case exec =>
    intro d' d'' file hbeside hbeside' hmem hcontent
    rw [h.exec hmem hbeside hbeside' hcontent]
  case exec_disk =>
    intro d' file hbeside hmem
    rw [h.exec hmem hbeside hbeside rfl]

end Rig

end TesterTool

end BlockLang

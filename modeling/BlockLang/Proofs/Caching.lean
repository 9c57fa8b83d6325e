import BlockLang.Cache
import BlockLang.Proofs.Safety

/-! Calls in a row on one cache. What is read from a path is what was last written to it, so a program
that is found in the cache was compiled in an earlier call, from the same source if hashes tell sources
apart. The settings of that call need not be those of the call that finds it: a call answers as if
there were no cache as long as calls with the same source agree on the features of the language. -/

namespace BlockLang

namespace Disk

variable {d d' : Disk} {place place' : List String} {node : Node}

theorem lookup_filter_ne {nodes : List (List String × Node)} (h : place' ≠ place) :
    (nodes.filter (·.1 ≠ place)).lookup place' = nodes.lookup place' := by
  induction nodes with
  | nil => rfl
  | cons entry nodes ih =>
      by_cases hentry : entry.1 = place
      · have hother : (place' == entry.1) = false := beq_false_of_ne (hentry ▸ h)
        rw [List.filter_cons_of_neg (by simpa using hentry), List.lookup_cons, hother]
        exact ih
      · rw [List.filter_cons_of_pos (by simpa using hentry), List.lookup_cons, List.lookup_cons, ih]

theorem at?_put_self (h : place ≠ []) : (d.put place node).at? place = some node := by
  simp [at?, put, h]

theorem at?_put_of_ne (h : place' ≠ place) : (d.put place node).at? place' = d.at? place' := by
  simp only [at?, put, List.lookup_cons, beq_false_of_ne h]
  rw [lookup_filter_ne h]

/-- Only folders are passed on the way along a path, so a file in another place does not change it. -/
theorem follow_put (hplace : d.at? place ≠ some .folder) {start parts goal : List String}
    (h : d.follow start parts = .ok goal) : (d.put place node).follow start parts = .ok goal := by
  induction parts generalizing start with
  | nil => exact h
  | cons part rest ih =>
      rw [follow] at h ⊢
      by_cases hstart : start = place
      · rw [hstart] at h
        split at h
        · cases h
        · exact absurd ‹_› hplace
        · cases h
      · rw [at?_put_of_ne hstart]
        split at h
        · cases h
        · split_ifs at h ⊢
          · exact ih h
          · exact ih h
          · exact ih h
        · cases h

theorem resolve_put (hplace : d.at? place ≠ some .folder) {path : String} {goal : List String}
    (h : d.resolve path = .ok goal) : (d.put place node).resolve path = .ok goal := by
  rw [resolve] at h ⊢
  split_ifs at h ⊢
  · exact follow_put hplace h
  · exact follow_put hplace h

/-- A write succeeds at a place that is no folder, and changes that place only. -/
theorem write_ok {path : String} {content : List UInt8} (h : d.write path content = .ok d') :
    ∃ place, d.resolve path = .ok place ∧ d.at? place ≠ some .folder ∧
      d' = d.put place (.file content) := by
  rw [write, tried] at h
  have hwritten := mapError_eq_ok h
  cases hplace : d.resolve path with
  | error cause =>
      rw [hplace] at hwritten
      cases hwritten
  | ok place =>
      rw [hplace] at hwritten
      simp only [bind, Except.bind] at hwritten
      refine ⟨place, rfl, fun hfolder => ?_, ?_⟩
      · rw [hfolder] at hwritten
        cases hwritten
      · split at hwritten
        · cases hwritten
        · exact (Except.ok.inj hwritten).symm
        · exact (Except.ok.inj hwritten).symm
        · cases hwritten
        · cases hwritten

/-- A file holds what was written to it. -/
theorem read_of_write {path : String} {content : List UInt8} (h : d.write path content = .ok d') :
    d'.read path = .ok content := by
  obtain ⟨place, hresolve, hplace, rfl⟩ := write_ok h
  have hroot : place ≠ [] := by
    rintro rfl
    exact hplace rfl
  have hlookup : (d.put place (.file content)).lookup path = .ok (.file content) := by
    rw [lookup, resolve_put hplace hresolve]
    simp only [bind, Except.bind, at?_put_self hroot]
  rw [read, hlookup]
  rfl

end Disk

/-- Compilation reads the features among the settings and nothing else. -/
theorem Compilation.compiled_congr {settings settings' : Settings}
    (h : settings.feature = settings'.feature) (name : String) (source : List Char) :
    compiled settings name source = compiled settings' name source := by
  have hnext : Scan.next settings 0 = Scan.next settings' 0 := by
    funext cursor
    rw [Scan.next, Scan.next, h]
  have hsteps : ∀ n cursor, Scan.stepsFrom settings 0 n cursor = Scan.stepsFrom settings' 0 n cursor := by
    intro n
    induction n with
    | zero => exact fun _ => rfl
    | succ n ih =>
        intro cursor
        rw [Scan.stepsFrom, Scan.stepsFrom, hnext]
        simp only [ih]
  have hparsed : parsed settings name source = parsed settings' name source := by
    rw [parsed, parsed, Scan.tokenize, Scan.tokenize, Scan.steps, Scan.steps, hsteps]
  rw [compiled, compiled, resolved, resolved, typed, typed, hparsed]

theorem Compilation.sourceHash_of_compiled {settings : Settings} {name : String} {source : List Char}
    {p : Program} (h : (compiled settings name source).result = .ok p) :
    p.sourceHash = Digest.ofSource source := by
  obtain ⟨_, _, q, -, -, rfl⟩ := compiled_ok h
  rfl

namespace Cache

/-- A source that is to be compiled, with the settings of the compilation. -/
structure Call where
  settings : Settings
  source : List Char

/-- What calls in a row yield, each on the disk that the one before has left. -/
def serve (name : String) : Disk → List Call → List Outcome
  | _, [] => []
  | d, call :: rest =>
    let outcome := compile d call.settings name call.source
    outcome :: serve name outcome.disk rest

/-- The result of a call without a cache. -/
def Call.fresh (name : String) (call : Call) : Except CompileError Program :=
  (Compilation.compiled call.settings name call.source).result

variable {d : Disk} {name : String} {call : Call} {past : List Call}

/-- A program in the cache is the result of an earlier call. -/
def Keeps (name : String) (past : List Call) (d : Disk) : Prop :=
  ∀ p, d.loadProgram (path name) = .ok p → ∃ earlier ∈ past, earlier.fresh name = .ok p

/-- A call compiles, or finds what an earlier call has compiled from the same source. -/
inductive Answers (name : String) (past : List Call) (call : Call) (o : Outcome) : Prop where
  | compiled : o.hit = false → o.compiled.result = call.fresh name → Answers name past call o
  | found {earlier : Call} {p : Program} : o.hit = true → earlier ∈ past →
      earlier.source = call.source → earlier.fresh name = .ok p → o.compiled.result = .ok p →
      Answers name past call o

theorem loadProgram_of_save {d' : Disk} {path : String} {p : Program}
    (h : d.saveProgram path p = .ok d') (hcodec : Program.ofBytes p.toBytes = .ok p) :
    d'.loadProgram path = .ok p := by
  rw [Disk.loadProgram, Disk.read_of_write h]
  simp only [Except.mapError, bind, Except.bind, hcodec]

/-- A compilation for the cache has the result of a compilation, and leaves it on the disk or leaves the
disk alone. -/
theorem refresh_cases (d : Disk) (settings : Settings) (name : String) (source : List Char)
    (before : List Event) :
    let o := refresh d settings name source before
    let result := (Compilation.compiled settings name source).result
    o.hit = false ∧ o.compiled.result = result ∧
      (o.disk = d ∨ ∃ p, result = .ok p ∧ d.saveProgram (path name) p = .ok o.disk) := by
  simp only [refresh]
  cases (Compilation.compiled settings name source).result with
  | error e => exact ⟨rfl, rfl, .inl rfl⟩
  | ok p =>
      cases hsave : d.saveProgram (path name) p with
      | error e =>
          simp only [hsave]
          exact ⟨trivial, trivial, .inl trivial⟩
      | ok d' =>
          simp only [hsave]
          exact ⟨trivial, trivial, .inr ⟨p, rfl, hsave⟩⟩

/-- A compilation either answers with a stored program of the same source or compiles anew. -/
theorem compile_cases (d : Disk) (settings : Settings) (name : String) (source : List Char) :
    (∃ p events, d.loadProgram (path name) = .ok p ∧ p.sourceHash = Digest.ofSource source ∧
      compile d settings name source = ⟨d, ⟨events, .ok p⟩, true⟩) ∨
    ∃ before, compile d settings name source = refresh d settings name source before := by
  rw [compile, find?]
  cases hload : d.loadProgram (path name) with
  | error e =>
      cases hmissing : e.isMissing with
      | true =>
          simp only [hmissing, if_true]
          exact .inr ⟨_, rfl⟩
      | false =>
          simp only [hmissing, Bool.false_eq_true, if_false]
          exact .inr ⟨_, rfl⟩
  | ok p =>
      by_cases hhash : p.sourceHash = Digest.ofSource source
      · simp only [hhash, if_true]
        exact .inl ⟨p, _, rfl, hhash, rfl⟩
      · simp only [hhash, if_false]
        exact .inr ⟨_, rfl⟩

/-- One call: it answers from what it finds, and leaves a cache of results. -/
theorem compile_answers (hkeeps : Keeps name past d)
    (hhash : ∀ earlier ∈ past, Digest.ofSource earlier.source = Digest.ofSource call.source →
      earlier.source = call.source)
    (hcodec : ∀ p, call.fresh name = .ok p → Program.ofBytes p.toBytes = .ok p) :
    let o := compile d call.settings name call.source
    Answers name past call o ∧ Keeps name (past ++ [call]) o.disk := by
  have hold : Keeps name (past ++ [call]) d := by
    intro p hp
    obtain ⟨earlier, hmem, hfresh⟩ := hkeeps p hp
    exact ⟨earlier, List.mem_append_left _ hmem, hfresh⟩
  rcases compile_cases d call.settings name call.source with ⟨p, events, hload, hp, ho⟩ | ⟨before, ho⟩
  · obtain ⟨earlier, hmem, hfresh⟩ := hkeeps p hload
    have hsame : Digest.ofSource earlier.source = Digest.ofSource call.source :=
      (Compilation.sourceHash_of_compiled hfresh).symm.trans hp
    rw [ho]
    exact ⟨.found rfl hmem (hhash earlier hmem hsame) hfresh rfl, hold⟩
  · rw [ho]
    obtain ⟨hhit, hresult, hdisk⟩ := refresh_cases d call.settings name call.source before
    refine ⟨.compiled hhit hresult, ?_⟩
    rcases hdisk with hdisk | ⟨p, hfresh, hsave⟩
    · rw [hdisk]
      exact hold
    · intro q hq
      rw [loadProgram_of_save hsave (hcodec p hfresh)] at hq
      cases hq
      exact ⟨call, List.mem_append_right _ (List.mem_singleton.mpr rfl), hfresh⟩

/-- All calls: each of them answers from what the calls before it have left. The first call belongs to the past of the
others. -/
theorem serve_answers {calls : List Call} (hkeeps : Keeps name past d)
    (hhash : ∀ earlier ∈ past ++ calls, ∀ call ∈ calls,
      Digest.ofSource earlier.source = Digest.ofSource call.source → earlier.source = call.source)
    (hcodec : ∀ call ∈ calls, ∀ p, call.fresh name = .ok p → Program.ofBytes p.toBytes = .ok p)
    {k : Nat} (hk : calls[k]? = some call) :
    ∃ o, (serve name d calls)[k]? = some o ∧ Answers name (past ++ calls.take k) call o := by
  induction calls generalizing past d k with
  | nil => cases hk
  | cons first rest ih =>
      obtain ⟨hanswers, hnext⟩ := compile_answers hkeeps
        (fun earlier hmem => hhash earlier (List.mem_append_left _ hmem) first List.mem_cons_self)
        (hcodec first List.mem_cons_self)
      cases k with
      | zero =>
          cases hk
          refine ⟨_, rfl, ?_⟩
          rw [List.take_zero, List.append_nil]
          exact hanswers
      | succ k =>
          have hsplit : past ++ [first] ++ rest = past ++ first :: rest := List.append_cons _ _ _ ▸ rfl
          obtain ⟨o, ho, hrest⟩ := ih hnext
            (fun earlier hmem later hlater =>
              hhash earlier (hsplit ▸ hmem) later (List.mem_cons_of_mem _ hlater))
            (fun later hlater => hcodec later (List.mem_cons_of_mem _ hlater)) hk
          refine ⟨o, ho, ?_⟩
          rw [List.take_succ_cons, List.append_cons]
          exact hrest

/-- On a path that holds no program at first, each call compiles, or finds what an earlier call has
compiled from the same source. If the earlier calls with that source have had the same features, the
result is that of a call without a cache. -/
theorem serve_faithful {calls : List Call} (hnone : ∀ p, d.loadProgram (path name) ≠ .ok p)
    (hhash : ∀ call ∈ calls, ∀ call' ∈ calls,
      Digest.ofSource call.source = Digest.ofSource call'.source → call.source = call'.source)
    (hcodec : ∀ call ∈ calls, ∀ p, call.fresh name = .ok p → Program.ofBytes p.toBytes = .ok p)
    {k : Nat} (hk : calls[k]? = some call) :
    ∃ o, (serve name d calls)[k]? = some o ∧ Answers name (calls.take k) call o ∧
      ((∀ earlier ∈ calls.take k, earlier.source = call.source →
          earlier.settings.feature = call.settings.feature) →
        o.compiled.result = call.fresh name) := by
  have hkeeps : Keeps name [] d := fun p hp => absurd hp (hnone p)
  obtain ⟨o, ho, hanswers⟩ := serve_answers hkeeps hhash hcodec hk
  rw [List.nil_append] at hanswers
  refine ⟨o, ho, hanswers, fun hsame => ?_⟩
  cases hanswers with
  | compiled _ hresult => exact hresult
  | @found earlier p _ hmem hsource hfresh hresult =>
      have hcongr := Compilation.compiled_congr (hsame earlier hmem hsource) name call.source
      rw [hresult, ← hfresh, Call.fresh, Call.fresh, hsource, hcongr]

/-- A program is found again under other warnings, although a source that does not compile has come in
between. -/
theorem serve_faithful_warned :
    let source := "writeln $1;".toList
    let warned : Call := ⟨({} : Settings).setWarning .pedantic true, source⟩
    let calls : List Call := [⟨{}, source⟩, ⟨{}, "break;".toList⟩, warned]
    (∀ p, ({} : Disk).loadProgram (path "a.sw") ≠ .ok p) ∧
      ∃ o, (serve "a.sw" {} calls)[2]? = some o ∧ o.hit = true ∧
        o.compiled.result = warned.fresh "a.sw" := by
  intro source warned calls
  have hnone : ∀ p, ({} : Disk).loadProgram (path "a.sw") ≠ .ok p := by
    intro p hp
    have hload : (({} : Disk).loadProgram (path "a.sw")).toOption = none := by decide +kernel
    rw [hp] at hload
    cases hload
  have hhash : ∀ call ∈ calls, ∀ call' ∈ calls,
      Digest.ofSource call.source = Digest.ofSource call'.source → call.source = call'.source := by
    decide +kernel
  have hcodec : ∀ call ∈ calls, ∀ p, call.fresh "a.sw" = .ok p →
      Program.ofBytes p.toBytes = .ok p := by
    have hall : ∀ call ∈ calls, ((call.fresh "a.sw").toOption.all fun p =>
        decide (Program.ofBytes p.toBytes = .ok p)) = true := by decide +kernel
    intro call hcall p hp
    have hone := hall call hcall
    rw [hp] at hone
    exact of_decide_eq_true hone
  have hfeatures : ∀ earlier ∈ calls.take 2, earlier.settings.feature = warned.settings.feature :=
    List.forall_mem_cons.mpr ⟨rfl, List.forall_mem_singleton.mpr rfl⟩
  have hk : calls[2]? = some warned := rfl
  obtain ⟨o, ho, -, hresult⟩ := serve_faithful hnone hhash hcodec hk
  have hhit : (serve "a.sw" {} calls)[2]?.map (·.hit) = some true := by decide +kernel
  rw [ho] at hhit
  exact ⟨hnone, o, ho, Option.some.inj hhit, hresult fun earlier hmem _ => hfeatures earlier hmem⟩

/-- A program that was compiled with an operator is found by a call whose settings do not know that
operator. -/
theorem serve_ignores_features :
    let source := "writeln $1;".toList
    let strict : Call := ⟨({} : Settings).setFeature .stringify false, source⟩
    ∃ o p, (serve "a.sw" {} [⟨{}, source⟩, strict])[1]? = some o ∧ o.compiled.result = .ok p ∧
      strict.fresh "a.sw" = .error (.lexical ⟨.stringifyDisabled,
        { kind := .dollar, line := 1, column := 9, len := 1 }⟩) := by
  intro source strict
  have hfound : ((serve "a.sw" {} [⟨{}, source⟩, strict])[1]?.bind
      (·.compiled.result.toOption)).isSome = true := by decide +kernel
  obtain ⟨p, hp⟩ := Option.isSome_iff_exists.mp hfound
  obtain ⟨o, ho, hresult⟩ := Option.bind_eq_some_iff.mp hp
  refine ⟨o, p, ho, ?_, rfl⟩
  cases hr : o.compiled.result with
  | error e =>
      rw [hr] at hresult
      cases hresult
  | ok q =>
      rw [hr] at hresult
      exact congrArg Except.ok (Option.some.inj hresult)

end Cache

end BlockLang

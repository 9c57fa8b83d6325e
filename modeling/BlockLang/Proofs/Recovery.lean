import BlockLang.Proofs.Caching
import BlockLang.Proofs.Storage
import BlockLang.Proofs.Tables

/-! The cache recovers from whatever it finds. A file that is no stored program, that is not valid, or
that was compiled from another source is passed over, and the compilation that takes its place leaves a
program behind that the next call finds. A compilation that fails leaves the disk alone. -/

namespace BlockLang

/-- A file can be written at a path. -/
def Disk.Writable (d : Disk) (path : String) : Prop := ∀ content, ∃ d', d.write path content = .ok d'

theorem Disk.writable_of_file {d : Disk} {path : String} {place : List String} {content : List UInt8}
    (hresolve : d.resolve path = .ok place) (hfile : d.at? place = some (.file content)) :
    d.Writable path := by
  intro new
  refine ⟨d.put place (.file new), ?_⟩
  rw [write, hresolve]
  simp only [bind, Except.bind, hfile, tried, Except.mapError]

/-- Bytes are read as a program if they are its stored form behind a signature, and it is valid. -/
theorem Program.ofBytes_eq_ok {bytes : List UInt8} {p : Program} :
    ofBytes bytes = .ok p ↔ ∃ body, bytes = Stored.signature ++ body ∧
      (Cbor.decode? body).bind Stored.program? = some p ∧ p.validate = .ok () := by
  rw [ofBytes]
  constructor
  · intro h
    split at h
    case isFalse => cases h
    case isTrue hsignature =>
      obtain ⟨body, rfl⟩ := List.isPrefixOf_iff_prefix.mp hsignature
      rw [List.drop_left] at h
      refine ⟨body, rfl, ?_⟩
      split at h
      case h_1 => cases h
      case h_2 q hq =>
        split at h
        case h_1 => cases h
        case h_2 hvalid =>
          cases h
          exact ⟨hq, hvalid⟩
  · rintro ⟨body, rfl, hdecode, hvalid⟩
    rw [if_pos (List.isPrefixOf_iff_prefix.mpr (List.prefix_append _ _)), List.drop_left, hdecode]
    simp only [hvalid]

/-- A program is loaded if the file can be read and its bytes stand for one. -/
theorem Disk.loadProgram_eq_ok {d : Disk} {path : String} {p : Program} :
    d.loadProgram path = .ok p ↔
      ∃ content, d.read path = .ok content ∧ Program.ofBytes content = .ok p := by
  rw [loadProgram]
  cases d.read path with
  | error e =>
      constructor
      · rintro ⟨⟩
      · rintro ⟨_, ⟨⟩, _⟩
  | ok content =>
      constructor
      · intro h
        exact ⟨content, rfl, mapError_eq_ok h⟩
      · rintro ⟨_, ⟨⟩, h⟩
        simp only [Except.mapError, bind, Except.bind, h]

/-- Whatever source it comes from, a compiled program is valid. -/
theorem Compilation.validate_of_compiled {settings : Settings} {name : String} {source : List Char}
    {p : Program} (h : (compiled settings name source).result = .ok p) : p.validate = .ok () := by
  obtain ⟨_, body, slots, c, _, _, hresolved, hemit, hfin, hp, -⟩ := compiled_carries h
  obtain ⟨program, -, hres⟩ := resolved_ok hresolved
  obtain ⟨-, hbelow⟩ := resolve_tables hres
  exact (hp.wellFormed hfin hemit hbelow).validate

namespace Cache

/-- A path holds the stored form of a valid program that records the hash of a source. -/
def Holds (d : Disk) (path : String) (source : List Char) (p : Program) : Prop :=
  ∃ body, d.read path = .ok (Stored.signature ++ body) ∧
    (Cbor.decode? body).bind Stored.program? = some p ∧ p.validate = .ok () ∧
    p.sourceHash = Digest.ofSource source

variable {d : Disk} {name : String} {source : List Char} {p : Program}

theorem holds_iff : Holds d (path name) source p ↔
    d.loadProgram (path name) = .ok p ∧ p.sourceHash = Digest.ofSource source := by
  simp only [Disk.loadProgram_eq_ok, Program.ofBytes_eq_ok, Holds]
  constructor
  · rintro ⟨body, hread, hdecode, hvalid, hhash⟩
    exact ⟨⟨_, hread, body, rfl, hdecode, hvalid⟩, hhash⟩
  · rintro ⟨⟨_, hread, body, rfl, hdecode, hvalid⟩, hhash⟩
    exact ⟨body, hread, hdecode, hvalid, hhash⟩

/-- A call finds what the path holds and leaves it there. -/
theorem compile_of_holds (h : Holds d (path name) source p) (settings : Settings) :
    let o := compile d settings name source
    o.hit = true ∧ o.compiled.result = .ok p ∧ o.disk = d := by
  obtain ⟨hload, hhash⟩ := holds_iff.mp h
  simp only [compile, find?, hload, hhash, if_true, and_self]

/-- A call that can use nothing compiles. -/
theorem compile_of_not_holds (h : ¬∃ p, Holds d (path name) source p) (settings : Settings) :
    ∃ before, compile d settings name source = refresh d settings name source before := by
  rcases compile_cases d settings name source with ⟨p, events, hload, hhash, -⟩ | hrefresh
  · exact absurd ⟨p, holds_iff.mpr ⟨hload, hhash⟩⟩ h
  · exact hrefresh

/-- A compilation that succeeds leaves its result in the path. -/
theorem refresh_holds {settings : Settings} {before : List Event} (hwritable : d.Writable (path name))
    (hcompiled : (Compilation.compiled settings name source).result = .ok p) (hfits : p.Fits) :
    Holds (refresh d settings name source before).disk (path name) source p := by
  obtain ⟨d', hsave⟩ := hwritable p.toBytes
  have hdisk : (refresh d settings name source before).disk = d' := by
    have hsaved : d.saveProgram (path name) p = .ok d' := hsave
    simp only [refresh, hcompiled, hsaved]
  have hcodec := Program.ofBytes_toBytes (Compilation.validate_of_compiled hcompiled) hfits
  rw [hdisk]
  exact holds_iff.mpr ⟨loadProgram_of_save hsave hcodec, Compilation.sourceHash_of_compiled hcompiled⟩

/-- Whatever the path holds, a call uses it only if it is the stored form of a valid program with the
hash of the source. Otherwise the call compiles: if that fails, the disk is left as it was. After every
call with a result, the next call with the same source finds that result, whatever its settings. -/
theorem compile_recovers {settings : Settings} (hwritable : d.Writable (path name))
    (hfits : ∀ p, (Compilation.compiled settings name source).result = .ok p → p.Fits) :
    let o := compile d settings name source
    (o.hit = true ↔ ∃ p, Holds d (path name) source p) ∧
    (∀ p, Holds d (path name) source p → o.compiled.result = .ok p) ∧
    (o.hit = false → o.compiled.result = (Compilation.compiled settings name source).result) ∧
    (∀ e, o.compiled.result = .error e → o.hit = false ∧ o.disk = d) ∧
    ∀ p, o.compiled.result = .ok p → ∀ settings',
      let again := compile o.disk settings' name source
      again.hit = true ∧ again.compiled.result = .ok p ∧ again.disk = o.disk := by
  intro o
  by_cases hheld : ∃ p, Holds d (path name) source p
  · obtain ⟨p, hp⟩ := hheld
    obtain ⟨hhit, hresult, hdisk⟩ := compile_of_holds hp settings
    refine ⟨iff_of_true hhit ⟨p, hp⟩, fun q hq => (compile_of_holds hq settings).2.1, fun hmiss => ?_,
      fun e he => ?_, fun q hq settings' => ?_⟩
    · rw [hhit] at hmiss
      cases hmiss
    · rw [hresult] at he
      cases he
    · rw [hresult] at hq
      cases hq
      rw [hdisk]
      exact compile_of_holds hp settings'
  · obtain ⟨before, ho⟩ := compile_of_not_holds hheld settings
    obtain ⟨hhit, hresult, hdisk⟩ := refresh_cases d settings name source before
    rw [← ho] at hhit hresult hdisk
    refine ⟨iff_of_false (by rw [hhit]; exact Bool.false_ne_true) hheld,
      fun p hp => absurd ⟨p, hp⟩ hheld, fun _ => hresult, fun e he => ⟨hhit, hdisk.resolve_right ?_⟩,
      fun p hp settings' => ?_⟩
    · rintro ⟨p, hp, -⟩
      rw [← hresult, he] at hp
      cases hp
    · have hcompiled := hresult.symm.trans hp
      have hleft : Holds o.disk (path name) source p := by
        rw [show o = _ from ho]
        exact refresh_holds hwritable hcompiled (hfits p hcompiled)
      exact compile_of_holds hleft settings'

/-- A file that has the hash of the source, but whose program marks none of its labels. The next call is
made under settings that refuse the source. -/
theorem compile_recovers_unmarked :
    let source := "writeln $1;".toList
    let corrupt : Program := { labelCount := 3, sourceHash := Digest.ofSource source }
    let d : Disk := { nodes := [(["a.swbc"], .file corrupt.toBytes)] }
    let o := compile d {} "a.sw" source
    let again := compile o.disk (({} : Settings).setFeature .stringify false) "a.sw" source
    d.Writable (path "a.sw") ∧ o.hit = false ∧
      ∃ p, (Compilation.compiled {} "a.sw" source).result = .ok p ∧ p.Fits ∧
        o.compiled.result = .ok p ∧ again.hit = true ∧ again.compiled.result = .ok p ∧
        again.disk = o.disk := by
  intro source corrupt d o again
  let compiled : Program :=
    { code := some #[⟨0, 1⟩, ⟨50, 0⟩, ⟨97, 0⟩, ⟨2, 0⟩, ⟨16, 0⟩], sourceHash := Digest.ofSource source }
  have hresolve : d.resolve (path "a.sw") = .ok ["a.swbc"] := by decide +kernel
  have hwritable : d.Writable (path "a.sw") := Disk.writable_of_file hresolve rfl
  have hcompiled : (Compilation.compiled {} "a.sw" source).result = .ok compiled := by decide +kernel
  have hfits : compiled.Fits := ⟨by decide, by decide, fun s h => absurd h (Array.not_mem_empty s)⟩
  have hmiss : o.hit = false := by decide +kernel
  have hall : ∀ p, (Compilation.compiled {} "a.sw" source).result = .ok p → p.Fits := by
    intro p hp
    rw [hcompiled] at hp
    cases hp
    exact hfits
  obtain ⟨-, -, hfresh, -, hnext⟩ := compile_recovers hwritable hall
  have hresult := (hfresh hmiss).trans hcompiled
  exact ⟨hwritable, hmiss, compiled, hcompiled, hfits, hresult, hnext _ hresult _⟩

end Cache

end BlockLang

import BlockLang.Golden.Suite
import BlockLang.Proofs.Caching

/-! Paths of places. A place whose parts are names has one path from the root, which leads back to it on
every disk; its folder and its last part are read off it. What is read from such a path depends on the
nodes along the way and on nothing else on the disk. -/

namespace BlockLang

namespace Path

/-- A name of a file or a folder: it has no slash and does not speak of another folder. -/
def IsName (part : String) : Prop := part ≠ "" ∧ part ≠ "." ∧ part ≠ ".." ∧ '/' ∉ part.toList

def IsPlace (place : List String) : Prop := ∀ part ∈ place, IsName part

variable {place : List String} {name : String}

theorem parts_append (a b : String) : parts (a ++ "/" ++ b) = parts a ++ parts b := by
  have htext : (a ++ "/" ++ b).toList = a.toList ++ '/' :: b.toList := by simp
  rw [parts, parts, parts, htext, List.splitOn_append_cons_self, List.map_append]

theorem parts_of_isName (h : IsName name) : parts name = [name] := by
  rw [parts, List.splitOn_eq_singleton h.2.2.2]
  simp

theorem head?_ofParts : (ofParts place).toList.head? = some '/' := by
  rw [ofParts, String.toList_append]
  rfl

/-- What ends in a letter and has no slash is a name. -/
theorem isName_of_getLast? {c : Char} (h : name.toList.getLast? = some c) (hdot : c ≠ '.')
    (hslash : '/' ∉ name.toList) : IsName name := by
  refine ⟨?_, ?_, ?_, hslash⟩
  · rintro rfl
    cases h
  · rintro rfl
    exact hdot (Option.some.inj h).symm
  · rintro rfl
    exact hdot (Option.some.inj h).symm

theorem parts_intercalate (h : IsPlace place) (hne : place ≠ []) :
    parts ("/".intercalate place) = place := by
  have hslash : ∀ part ∈ place.map String.toList, '/' ∉ part := by
    intro part hpart
    obtain ⟨name, hname, rfl⟩ := List.mem_map.1 hpart
    exact (h name hname).2.2.2
  rw [parts, String.toList_intercalate, show "/".toList = ['/'] from rfl,
    List.splitOn_intercalate '/' hslash (by simpa using hne)]
  simp [Function.comp_def]

/-- In front of the names of a place stands the empty part before the first slash. -/
theorem parts_ofParts (h : IsPlace place) (hne : place ≠ []) : parts (ofParts place) = "" :: place := by
  have htext : ofParts place = "" ++ "/" ++ "/".intercalate place := by simp [ofParts]
  rw [htext, parts_append, parts_intercalate h hne]
  rfl

theorem filter_parts_ofParts (h : IsPlace place) : (parts (ofParts place)).filter (· ≠ "") = place := by
  by_cases hne : place = []
  · subst hne
    decide
  · rw [parts_ofParts h hne, List.filter_cons_of_neg (by simp), List.filter_eq_self]
    intro part hpart
    simpa using (h part hpart).1

theorem mem_parts_ofParts (h : IsPlace place) {part : String} (hpart : part ∈ parts (ofParts place)) :
    part = "" ∨ IsName part := by
  by_cases hempty : part = ""
  · exact .inl hempty
  · have hmem : part ∈ (parts (ofParts place)).filter (· ≠ "") := by
      simpa [List.mem_filter] using ⟨hpart, hempty⟩
    rw [filter_parts_ofParts h] at hmem
    exact .inr (h part hmem)

/-- Names are kept and what is empty is left out. -/
theorem normalize_of_names {rooted : Bool} {ps : List String} (h : ∀ part ∈ ps, part = "" ∨ IsName part) :
    normalize rooted ps = ps.filter (· ≠ "") := by
  have hfold : ∀ taken, ps.foldl (takePart rooted) taken = (ps.filter (· ≠ "")).reverse ++ taken := by
    induction ps with
    | nil => exact fun _ => rfl
    | cons part ps ih =>
        intro taken
        have hrest := ih fun part hpart => h part (List.mem_cons_of_mem _ hpart)
        rw [List.foldl_cons, hrest]
        obtain rfl | hname := h part List.mem_cons_self
        · rw [List.filter_cons_of_neg (by simp)]
          simp [takePart]
        · rw [List.filter_cons_of_pos (by simpa using hname.1)]
          simp [takePart, hname.1, hname.2.1, hname.2.2.1]
  rw [normalize, hfold, List.append_nil, List.reverse_reverse]

theorem isAbsolute_ofParts : isAbsolute (ofParts place) = true := by
  rw [isAbsolute, String.startsWith_string_iff, ofParts, String.toList_append]
  exact List.prefix_append _ _

theorem isAbsolute_append {a : String} (b : String) (h : isAbsolute a = true) :
    isAbsolute (a ++ b) = true := by
  rw [isAbsolute, String.startsWith_string_iff] at h ⊢
  rw [String.toList_append]
  exact h.trans (List.prefix_append _ _)

/-- The path of a place ends in a slash and the last name; what is in front of them leads to the
folder. -/
theorem exists_front (h : IsPlace place) :
    ∃ front, (∀ name, ofParts (place ++ [name]) = front ++ "/" ++ name) ∧
      (∀ part ∈ parts front, part = "" ∨ IsName part) ∧ (parts front).filter (· ≠ "") = place ∧
      isAbsolute (front ++ "/") = true := by
  by_cases hne : place = []
  · subst hne
    refine ⟨"", fun name => ?_, fun part hpart => .inl (List.mem_singleton.1 hpart), by decide, ?_⟩
    · rw [List.nil_append, ofParts, String.intercalate_singleton, String.empty_append]
    · exact String.startsWith_string_iff.2 (by simp)
  · refine ⟨ofParts place, fun name => ?_, ?_, filter_parts_ofParts h,
      isAbsolute_append _ isAbsolute_ofParts⟩
    · rw [ofParts, ofParts, String.intercalate_append_of_ne_nil hne (List.cons_ne_nil _ _),
        String.intercalate_singleton]
      simp only [String.append_assoc]
    · exact fun part hpart => mem_parts_ofParts h hpart

theorem base_ofParts (h : IsPlace place) (hname : IsName name) : base (ofParts (place ++ [name])) = name := by
  obtain ⟨front, hfront, -, -, -⟩ := exists_front h
  have hne : ofParts (place ++ [name]) ≠ "" := by
    rw [hfront, ← String.toList_inj.ne]
    simp
  rw [base, if_neg hne, hfront, parts_append, parts_of_isName hname, List.reverse_append,
    List.reverse_singleton, List.singleton_append, List.find?_cons_of_pos (by simpa using hname.1)]

/-- The folder of a place is the place without its last part. -/
theorem folder_ofParts (h : IsPlace place) (hname : IsName name) :
    folder (ofParts (place ++ [name])) = ofParts place := by
  obtain ⟨front, hfront, hparts, hplace, habsolute⟩ := exists_front h
  have hcut : String.ofList ((ofParts (place ++ [name])).toList.reverse.dropWhile (· ≠ '/')).reverse
      = front ++ "/" := by
    have htext : (ofParts (place ++ [name])).toList.reverse
        = name.toList.reverse ++ '/' :: front.toList.reverse := by simp [hfront]
    have hdrop : ∀ c ∈ name.toList.reverse, decide (c ≠ '/') = true := by
      intro c hc
      exact decide_eq_true fun h => hname.2.2.2 (h ▸ List.mem_reverse.1 hc)
    rw [htext, List.dropWhile_append_of_pos hdrop, List.dropWhile_cons_of_neg (by simp),
      ← String.toList_inj]
    simp
  have hall : ∀ part ∈ parts (front ++ "/"), part = "" ∨ IsName part := by
    rw [← @String.append_empty (front ++ "/"), parts_append]
    intro part hpart
    obtain hpart | hpart := List.mem_append.1 hpart
    · exact hparts part hpart
    · exact .inl (List.mem_singleton.1 hpart)
  have hnormal : normalize true (parts (front ++ "/")) = place := by
    rw [normalize_of_names hall, ← @String.append_empty (front ++ "/"), parts_append, List.filter_append,
      hplace]
    exact List.append_nil _
  rw [folder, hcut, clean, habsolute, hnormal]
  rfl

/-- Joining adds a name to a place. -/
theorem join_ofParts (h : IsPlace place) (hname : IsName name) :
    join (ofParts place) name = ofParts (place ++ [name]) := by
  have hne : ofParts place ≠ "" := by
    rw [← String.toList_inj.ne, ofParts]
    simp
  have hall : ∀ part ∈ parts (ofParts place ++ "/" ++ name), part = "" ∨ IsName part := by
    rw [parts_append, parts_of_isName hname]
    intro part hpart
    obtain hpart | hpart := List.mem_append.1 hpart
    · exact mem_parts_ofParts h hpart
    · exact .inr (List.mem_singleton.1 hpart ▸ hname)
  have hnormal : normalize true (parts (ofParts place ++ "/" ++ name)) = place ++ [name] := by
    rw [normalize_of_names hall, parts_append, parts_of_isName hname, List.filter_append,
      filter_parts_ofParts h, List.filter_cons_of_pos (by simpa using hname.1), List.filter_nil]
  rw [join, if_neg hne, if_neg hname.1, clean, String.append_assoc,
    isAbsolute_append _ isAbsolute_ofParts, ← String.append_assoc, hnormal]
  rfl

theorem absolute_ofParts (cwd : List String) (h : IsPlace place) : absolute cwd (ofParts place) = place := by
  rw [absolute, isAbsolute_ofParts, if_pos rfl, normalize_of_names fun _ => mem_parts_ofParts h,
    filter_parts_ofParts h]

/-- The parts of a path have no slashes. -/
theorem slash_notMem_of_mem_parts {path part : String} (h : part ∈ parts path) : '/' ∉ part.toList := by
  obtain ⟨cs, hcs, rfl⟩ := List.mem_map.1 h
  rw [String.toList_ofList]
  have hsplit : ∀ text : List Char, ∀ cs ∈ text.splitOn '/', '/' ∉ cs := by
    intro text
    induction text with
    | nil => simp
    | cons c text ih =>
        intro cs hcs
        rw [List.splitOn_cons_eq_if_modifyHead] at hcs
        split_ifs at hcs with hc
        · obtain rfl | hcs := List.mem_cons.1 hcs
          · simp
          · exact ih cs hcs
        · obtain ⟨first, rest, hsplit⟩ := List.exists_cons_of_ne_nil (List.splitOn_ne_nil '/' text)
          rw [hsplit] at hcs ih
          obtain rfl | hcs := List.mem_cons.1 hcs
          · rw [List.mem_cons, not_or]
            exact ⟨fun h => hc (beq_iff_eq.2 h.symm), ih first List.mem_cons_self⟩
          · exact ih cs (List.mem_cons_of_mem _ hcs)
  exact hsplit path.toList cs hcs

/-- Only names are left of the parts of a path that begins at the root. -/
theorem isPlace_normalize {ps : List String} (h : ∀ part ∈ ps, '/' ∉ part.toList) :
    IsPlace (normalize true ps) := by
  have hfold : ∀ taken, IsPlace taken → IsPlace (ps.foldl (takePart true) taken) := by
    induction ps with
    | nil => exact fun _ htaken => htaken
    | cons part ps ih =>
        intro taken htaken
        refine ih (fun part hpart => h part (List.mem_cons_of_mem _ hpart)) _ ?_
        by_cases hempty : part = "" ∨ part = "."
        · rw [show takePart true taken part = taken from if_pos hempty]
          exact htaken
        by_cases hup : part = ".."
        · cases taken with
          | nil =>
              rw [show takePart true [] part = [] by simp [takePart, hup]]
              exact htaken
          | cons last rest =>
              have hlast := (htaken last List.mem_cons_self).2.2.1
              rw [show takePart true (last :: rest) part = rest by simp [takePart, hup, hlast]]
              exact fun part hpart => htaken part (List.mem_cons_of_mem _ hpart)
        · rw [show takePart true taken part = part :: taken from (if_neg hempty).trans (if_neg hup)]
          intro other hother
          obtain rfl | hother := List.mem_cons.1 hother
          · exact ⟨fun h => hempty (.inl h), fun h => hempty (.inr h), hup, h _ List.mem_cons_self⟩
          · exact htaken other hother
  intro part hpart
  exact hfold [] (List.forall_mem_nil _) part (List.mem_reverse.1 hpart)

theorem isPlace_absolute {cwd : List String} (h : IsPlace cwd) (path : String) :
    IsPlace (absolute cwd path) := by
  apply isPlace_normalize
  intro part hpart
  split_ifs at hpart with habsolute
  · exact slash_notMem_of_mem_parts hpart
  · obtain hpart | hpart := List.mem_append.1 hpart
    · exact (h part hpart).2.2.2
    · exact slash_notMem_of_mem_parts hpart

end Path

/-! ### Disks -/

namespace Disk

open BlockLang.Path

variable {d d' : Disk} {place : List String}

/-- The path of a place is followed from the root along its names. -/
theorem resolve_ofParts (h : IsPlace place) (hne : place ≠ []) :
    d.resolve (ofParts place)
      = if (ofParts place).toList.contains '\x00' then .error .badName else d.follow [] place := by
  have hpath : ofParts place ≠ "" := by
    rw [← String.toList_inj.ne, ofParts]
    simp
  rw [resolve, if_neg hpath, isAbsolute_ofParts, if_pos rfl, parts_ofParts h hne, follow]
  rfl

/-- On the way along names every place on the way is looked at, and no other. -/
theorem follow_congr {start : List String} (h : IsPlace place)
    (hway : ∀ way, way <+: place → way ≠ place → d.at? (start ++ way) = d'.at? (start ++ way)) :
    d.follow start place = d'.follow start place := by
  induction place generalizing start with
  | nil => rfl
  | cons name rest ih =>
      have hname := h name List.mem_cons_self
      have hrest : d.follow (start ++ [name]) rest = d'.follow (start ++ [name]) rest := by
        refine ih (fun part hpart => h part (List.mem_cons_of_mem _ hpart)) fun way hfront hne => ?_
        simpa using hway (name :: way) (List.cons_prefix_cons.2 ⟨rfl, hfront⟩) (by simpa using hne)
      have hstart := hway [] List.nil_prefix (List.cons_ne_nil _ _).symm
      rw [List.append_nil] at hstart
      rw [follow, follow, hstart, hrest, if_neg (not_or.2 ⟨hname.1, hname.2.1⟩), if_neg hname.2.2.1,
        if_neg (not_or.2 ⟨hname.1, hname.2.1⟩), if_neg hname.2.2.1]

/-- Following proper names leads to where they say. -/
theorem eq_append_of_follow {start goal : List String} (h : IsPlace place)
    (hfollow : d.follow start place = .ok goal) : goal = start ++ place := by
  induction place generalizing start with
  | nil => simpa [follow, eq_comm] using hfollow
  | cons name rest ih =>
      have hname := h name List.mem_cons_self
      rw [follow, if_neg (not_or.2 ⟨hname.1, hname.2.1⟩), if_neg hname.2.2.1] at hfollow
      split at hfollow
      · cases hfollow
      · split_ifs at hfollow
        rw [ih (fun part hpart => h part (List.mem_cons_of_mem _ hpart)) hfollow]
        simp
      · cases hfollow

/-- A place is only reached through its folder. -/
theorem folder_of_follow {start goal : List String} {name : String} (h : IsPlace (place ++ [name]))
    (hfollow : d.follow start (place ++ [name]) = .ok goal) : d.at? (start ++ place) = some .folder := by
  induction place generalizing start with
  | nil =>
      rw [List.nil_append, follow] at hfollow
      split at hfollow
      · cases hfollow
      · rw [List.append_nil]
        assumption
      · cases hfollow
  | cons first rest ih =>
      have hname := h first List.mem_cons_self
      rw [List.cons_append, follow, if_neg (not_or.2 ⟨hname.1, hname.2.1⟩), if_neg hname.2.2.1] at hfollow
      split at hfollow
      · cases hfollow
      · split_ifs at hfollow
        have hrest := ih (fun part hpart => h part (List.mem_cons_of_mem _ hpart)) hfollow
        simpa using hrest
      · cases hfollow

/-- A path that can be followed can be followed wherever the same folders are. -/
theorem follow_of_folders (h : ∀ place, d.at? place = some .folder → d'.at? place = some .folder)
    {start parts goal : List String} (hfollow : d.follow start parts = .ok goal) :
    d'.follow start parts = .ok goal := by
  induction parts generalizing start with
  | nil => exact hfollow
  | cons part rest ih =>
      rw [follow] at hfollow ⊢
      split at hfollow
      · cases hfollow
      · rw [h start ‹_›]
        dsimp only
        split_ifs at hfollow ⊢
        · exact ih hfollow
        · exact ih hfollow
        · exact ih hfollow
      · cases hfollow

theorem write_of_resolve {path : String} (hresolve : d.resolve path = .ok place)
    (hplace : d.at? place ≠ some .folder) (hfolder : d.at? place.dropLast = some .folder)
    (content : List UInt8) : d.write path content = .ok (d.put place (.file content)) := by
  rw [write, hresolve]
  simp only [bind, Except.bind, hfolder]
  cases hnode : d.at? place with
  | none => rfl
  | some node =>
      cases node with
      | folder => exact absurd hnode hplace
      | file content => rfl
      | program => rfl

/-- What is found at a place depends on the nodes on the way to it only. -/
theorem lookup_congr (h : IsPlace place) (hne : place ≠ [])
    (hway : ∀ way, way <+: place → d.at? way = d'.at? way) :
    d.lookup (ofParts place) = d'.lookup (ofParts place) := by
  have hfollow : d.follow [] place = d'.follow [] place :=
    follow_congr h fun way hfront _ => hway way hfront
  rw [lookup, lookup, resolve_ofParts h hne, resolve_ofParts h hne, ← hfollow]
  split_ifs
  · rfl
  · cases hgoal : d.follow [] place with
    | error cause => rfl
    | ok goal =>
        have hplace := eq_append_of_follow h hgoal
        simp only [bind, Except.bind, hplace, List.nil_append, hway place (List.prefix_refl _)]

theorem read_congr (h : IsPlace place) (hne : place ≠ [])
    (hway : ∀ way, way <+: place → d.at? way = d'.at? way) :
    d.read (ofParts place) = d'.read (ofParts place) := by
  rw [read, read, lookup_congr h hne hway]

end Disk

namespace Suite

open BlockLang.Path

/-- A file that was found for a pattern, with its place. -/
structure Stored (d : Disk) (file : String) (place : List String) : Prop where
  eq : file = ofParts place
  isPlace : IsPlace place
  node : ∃ node, d.at? place = some node ∧ node ≠ .folder

theorem Stored.ne_nil {d : Disk} {file : String} {place : List String} (h : Stored d file place) :
    place ≠ [] := by
  rintro rfl
  obtain ⟨node, hnode, hfolder⟩ := h.node
  exact hfolder (Option.some.inj hnode).symm

/-- The path of a stored file ends in its name. -/
theorem Stored.exists_name {d : Disk} {file : String} {place : List String} (h : Stored d file place) :
    ∃ above name, place = above ++ [name] ∧ IsPlace above ∧ IsName name ∧ base file = name := by
  obtain ⟨above, name, hplace⟩ := (List.eq_nil_or_concat place).resolve_left h.ne_nil
  rw [List.concat_eq_append] at hplace
  subst hplace
  have habove : IsPlace above := fun part hpart => h.isPlace part (List.mem_append_left _ hpart)
  have hname := h.isPlace name (by simp)
  exact ⟨above, name, rfl, habove, hname, h.eq ▸ base_ofParts habove hname⟩

variable {d : Disk} {found : List String}

/-- Adding files keeps the list free of duplicates, and every file of it is stored on the disk. -/
theorem addFiles_stored (hcwd : IsPlace d.cwd) (paths : List String)
    (hfound : found.Nodup ∧ ∀ file ∈ found, ∃ place, Stored d file place) :
    (addFiles d found paths).Nodup ∧ ∀ file ∈ addFiles d found paths, ∃ place, Stored d file place := by
  induction paths generalizing found with
  | nil => exact hfound
  | cons path paths ih =>
      refine ih ?_
      dsimp only
      split
      · exact hfound
      · exact hfound
      · rename_i node hfolder hnode
        split_ifs with hold
        · exact hfound
        · have hnew : ofParts (absolute d.cwd path) ∉ found := by simpa using hold
          refine ⟨List.nodup_append.2 ⟨hfound.1, List.nodup_singleton _, ?_⟩, fun file hfile => ?_⟩
          · rintro a ha b hb rfl
            exact hnew (List.mem_singleton.1 hb ▸ ha)
          · obtain hfile | hfile := List.mem_append.1 hfile
            · exact hfound.2 file hfile
            · exact ⟨_, List.mem_singleton.1 hfile, isPlace_absolute hcwd path, node, hnode,
                fun h => hfolder (h ▸ rfl)⟩

/-- What every step keeps holds of what all of them lead to. -/
theorem foldlM_induction {α β ε : Type} {motive : α → Prop} {step : α → β → Except ε α}
    (hstep : ∀ {a b a'}, motive a → step a b = .ok a' → motive a') {l : List β} {a a' : α} (ha : motive a)
    (h : l.foldlM step a = .ok a') : motive a' := by
  induction l generalizing a with
  | nil =>
      cases h
      exact ha
  | cons b l ih =>
      rw [List.foldlM_cons] at h
      cases hb : step a b with
      | error e =>
          rw [hb] at h
          cases h
      | ok next =>
          rw [hb] at h
          exact ih (hstep ha hb) h

/-- The files of patterns are stored on the disk, and each of them is listed once. -/
theorem files_stored {patterns : String} {files : List String} (hcwd : IsPlace d.cwd)
    (h : Suite.files d patterns = .ok files) :
    files.Nodup ∧ ∀ file ∈ files, ∃ place, Stored d file place := by
  refine foldlM_induction (motive := fun found => found.Nodup ∧ ∀ file ∈ found, ∃ place, Stored d file place)
    (fun {found pattern found'} hfound hstep => ?_) ⟨List.nodup_nil, List.forall_mem_nil _⟩ h
  cases hpaths : Pattern.paths? d pattern with
  | none =>
      rw [hpaths] at hstep
      cases hstep
  | some paths =>
      rw [hpaths] at hstep
      cases hstep
      exact addFiles_stored hcwd paths hfound

end Suite

end BlockLang

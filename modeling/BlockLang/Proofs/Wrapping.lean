import BlockLang.Text.Wrap
import Mathlib.Data.List.Chain
import Mathlib.Data.List.Infix

/-! Wrapped text. The lines of a text have its words in their order, and a line ends only where the next word would
have made it too wide. No other way to break the text needs fewer lines: whatever words another way puts on its first
lines, the lines that are filled up have taken these words and perhaps more, so that what is left for the lines to
come is an end of what is left there. -/

namespace BlockLang.Text

theorem splitWords_cons (c : Char) (cs : List Char) : splitWords (c :: cs) =
    if isBlank c then ([], consWord (splitWords cs).1 (splitWords cs).2)
    else (c :: (splitWords cs).1, (splitWords cs).2) :=
  rfl

theorem consWord_filter (word : List Char) (others : List (List Char)) :
    consWord word (others.filter (!·.isEmpty)) = (word :: others).filter (!·.isEmpty) := by
  cases word <;> rfl

/-- The words of a text are what stands between its white space, where that is not empty. -/
theorem words_eq_filter (s : String) :
    words s = ((s.toList.splitOnP isBlank).filter (!·.isEmpty)).map String.ofList := by
  have hsplit : ∀ cs : List Char, ∃ others, cs.splitOnP isBlank = (splitWords cs).1 :: others ∧
      (splitWords cs).2 = others.filter (!·.isEmpty) := by
    intro cs
    induction cs with
    | nil => exact ⟨[], List.splitOnP_nil, rfl⟩
    | cons c cs ih =>
        obtain ⟨others, hothers, hwords⟩ := ih
        rw [List.splitOnP_cons_eq_if_modifyHead, splitWords_cons, hwords, consWord_filter, hothers]
        by_cases hblank : isBlank c = true
        · rw [if_pos hblank, if_pos hblank]
          exact ⟨_, rfl, rfl⟩
        · rw [if_neg hblank, if_neg hblank]
          exact ⟨others, rfl, rfl⟩
  obtain ⟨others, hothers, hwords⟩ := hsplit s.toList
  show (consWord (splitWords s.toList).1 (splitWords s.toList).2).map String.ofList = _
  rw [hothers, hwords, consWord_filter]

/-- A word is not empty and has no white space. -/
theorem mem_words {s word : String} (h : word ∈ words s) : word ≠ "" ∧ ∀ c ∈ word.toList, isBlank c = false := by
  have hblank : ∀ cs : List Char, ∀ piece ∈ cs.splitOnP isBlank, ∀ c ∈ piece, isBlank c = false := by
    intro cs
    induction cs with
    | nil => simp
    | cons c cs ih =>
        obtain ⟨first, others, hsplit⟩ := List.exists_cons_of_ne_nil (List.splitOnP_ne_nil isBlank cs)
        rw [hsplit, List.forall_mem_cons] at ih
        rw [List.splitOnP_cons_eq_if_modifyHead, hsplit]
        split
        · exact List.forall_mem_cons.mpr ⟨List.forall_mem_nil _, List.forall_mem_cons.mpr ih⟩
        case isFalse hc =>
          exact List.forall_mem_cons.mpr ⟨List.forall_mem_cons.mpr ⟨Bool.eq_false_iff.mpr hc, ih.1⟩, ih.2⟩
  rw [words_eq_filter] at h
  obtain ⟨piece, hpiece, rfl⟩ := List.mem_map.mp h
  obtain ⟨hmem, hne⟩ := List.mem_filter.mp hpiece
  constructor
  · rintro hempty
    have hnil : piece = [] := by simpa using congrArg String.toList hempty
    rw [hnil] at hne
    cases hne
  · rw [String.toList_ofList]
    exact hblank s.toList piece hmem

/-- What stands between the spaces of a line. -/
def pieces (line : String) : List String := (line.toList.splitOn ' ').map String.ofList

theorem intercalate_pieces (line : String) : " ".intercalate (pieces line) = line := by
  rw [← String.toList_inj, String.toList_intercalate, pieces, List.map_map]
  have hid : String.toList ∘ String.ofList = id := funext fun _ => String.toList_ofList
  rw [hid, List.map_id]
  exact List.intercalate_splitOn ' '

theorem pieces_word {word : String} (h : ' ' ∉ word.toList) : pieces word = [word] := by
  rw [pieces, List.splitOn_eq_singleton h, List.map_singleton, String.ofList_toList]

theorem pieces_append (line word : String) : pieces (line ++ " " ++ word) = pieces line ++ pieces word := by
  have htext : (line ++ " " ++ word).toList = line.toList ++ ' ' :: word.toList := by simp
  rw [pieces, htext, List.splitOn_append_cons_self, List.map_append, pieces, pieces]

theorem pieces_intercalate {word : String} {rest : List String} (h : ∀ w ∈ word :: rest, pieces w = [w]) :
    pieces (" ".intercalate (word :: rest)) = word :: rest := by
  induction rest generalizing word with
  | nil => exact h word List.mem_cons_self
  | cons next rest ih =>
      rw [List.forall_mem_cons] at h
      rw [String.intercalate_cons_cons, pieces_append, h.1, ih h.2, List.singleton_append]

/-- A word more on a line is a word less behind it. -/
theorem intercalate_absorb (line word : String) (rest : List String) :
    " ".intercalate (line :: word :: rest) = " ".intercalate ((line ++ " " ++ word) :: rest) := by
  cases rest with
  | nil => rfl
  | cons next rest =>
      rw [String.intercalate_cons_cons, String.intercalate_cons_cons, String.intercalate_cons_cons]
      simp only [String.append_assoc]

/-- The bytes that words add to a line, each with its space. -/
def added : List String → Nat
  | [] => 0
  | word :: rest => 1 + word.utf8ByteSize + added rest

theorem added_append (front back : List String) : added (front ++ back) = added front + added back := by
  induction front with
  | nil => exact (Nat.zero_add _).symm
  | cons word front ih => rw [List.cons_append, added, added, ih, ← Nat.add_assoc]

theorem size_append (line word : String) :
    (line ++ " " ++ word).utf8ByteSize = line.utf8ByteSize + 1 + word.utf8ByteSize := by
  rw [String.utf8ByteSize_append, String.utf8ByteSize_append]
  rfl

theorem size_intercalate (line : String) (words : List String) :
    (" ".intercalate (line :: words)).utf8ByteSize = line.utf8ByteSize + added words := by
  induction words generalizing line with
  | nil => rfl
  | cons word words ih =>
      rw [intercalate_absorb, ih, size_append, added]
      omega

/-- The last words of a line are no wider than the line. -/
theorem size_intercalate_le (front : List String) (word : String) (rest : List String) :
    (" ".intercalate (word :: rest)).utf8ByteSize ≤ (" ".intercalate (front ++ word :: rest)).utf8ByteSize := by
  cases front with
  | nil => exact Nat.le_refl _
  | cons first front =>
      rw [List.cons_append, size_intercalate, size_intercalate, added_append, added]
      omega

/-- A line that may stand: it is no wider than the bound, or it has no space to break it at. -/
def Fits (width : Nat) (line : String) : Prop := line.utf8ByteSize ≤ width ∨ (pieces line).length = 1

/-- Lines that hold some words in their order and may all stand. -/
structure Breaks (width : Nat) (words lines : List String) : Prop where
  words : lines.flatMap pieces = words
  fits : ∀ line ∈ lines, Fits width line

/-- A line had no room for the first word of the next one. -/
def Full (width : Nat) (line next : String) : Prop :=
  ∀ word ∈ (pieces next).head?, width < line.utf8ByteSize + 1 + word.utf8ByteSize

variable {width : Nat}

def fillAll (width : Nat) : List String → List String
  | [] => []
  | word :: rest => fill width word rest

theorem wrap_eq_fillAll (h : 0 < width) (s : String) : wrap width s = fillAll width (words s) := by
  rw [wrap, if_neg (Nat.ne_of_gt h)]
  cases words s <;> rfl

/-- The line that is being filled takes some of the words, and the others are filled in by themselves. -/
theorem fill_eq_cons (width : Nat) (line : String) (words : List String) :
    ∃ taken rest, words = taken ++ rest ∧
      fill width line words = " ".intercalate (line :: taken) :: fillAll width rest := by
  induction words generalizing line with
  | nil => exact ⟨[], [], rfl, rfl⟩
  | cons word words ih =>
      rw [fill]
      split
      · exact ⟨[], word :: words, rfl, rfl⟩
      · obtain ⟨taken, rest, hwords, hfill⟩ := ih (line ++ " " ++ word)
        refine ⟨word :: taken, rest, ?_, ?_⟩
        · rw [hwords, List.cons_append]
        · rw [hfill, intercalate_absorb]

/-- Words that all fit on the line are taken. -/
theorem fill_append (line : String) (words rest : List String)
    (h : (" ".intercalate (line :: words)).utf8ByteSize ≤ width) :
    fill width line (words ++ rest) = fill width (" ".intercalate (line :: words)) rest := by
  induction words generalizing line with
  | nil => rfl
  | cons word words ih =>
      have hroom : ¬line.utf8ByteSize + word.utf8ByteSize + 1 > width := by
        rw [size_intercalate, added] at h
        omega
      rw [intercalate_absorb] at h ⊢
      rw [List.cons_append, fill, if_neg hroom, ih _ h]

theorem flatMap_fill (line : String) {words : List String} (h : ∀ word ∈ words, pieces word = [word]) :
    (fill width line words).flatMap pieces = pieces line ++ words := by
  induction words generalizing line with
  | nil => rw [fill, List.flatMap_singleton, List.append_nil]
  | cons word words ih =>
      rw [List.forall_mem_cons] at h
      rw [fill]
      split
      · rw [List.flatMap_cons, ih _ h.2, h.1]
        rfl
      · rw [ih _ h.2, pieces_append, h.1, List.append_assoc]
        rfl

/-- No line is wider than the page unless it is a single word. -/
theorem fits_of_mem_fill {line : String} {words : List String} (hline : Fits width line)
    (h : ∀ word ∈ words, pieces word = [word]) : ∀ l ∈ fill width line words, Fits width l := by
  induction words generalizing line with
  | nil => exact List.forall_mem_singleton.mpr hline
  | cons word words ih =>
      rw [List.forall_mem_cons] at h
      rw [fill]
      split
      · have hword : Fits width word := .inr (by rw [h.1]; rfl)
        exact List.forall_mem_cons.mpr ⟨hline, ih hword h.2⟩
      case isFalse hroom =>
        refine ih (.inl ?_) h.2
        rw [size_append]
        omega

theorem ne_empty_of_mem_fill {line : String} {words : List String} (hline : line ≠ "")
    (h : ∀ word ∈ words, word ≠ "") : ∀ l ∈ fill width line words, l ≠ "" := by
  induction words generalizing line with
  | nil => exact List.forall_mem_singleton.mpr hline
  | cons word words ih =>
      rw [List.forall_mem_cons] at h
      rw [fill]
      split
      · exact List.forall_mem_cons.mpr ⟨hline, ih h.1 h.2⟩
      · refine ih (fun hempty => ?_) h.2
        have hsize := size_append line word
        rw [hempty, String.utf8ByteSize_empty] at hsize
        omega

/-- A line ends only where the next word would not fit. -/
theorem isChain_fill (line : String) {words : List String} (h : ∀ word ∈ words, pieces word = [word]) :
    (fill width line words).IsChain (Full width) := by
  induction words generalizing line with
  | nil => exact .singleton line
  | cons word words ih =>
      rw [List.forall_mem_cons] at h
      rw [fill]
      split
      case isTrue hwide =>
        obtain ⟨taken, rest, hwords, hfill⟩ := fill_eq_cons width word words
        have htaken : ∀ w ∈ word :: taken, pieces w = [w] := by
          rw [hwords, List.forall_mem_append] at h
          exact List.forall_mem_cons.mpr ⟨h.1, h.2.1⟩
        refine List.isChain_cons.mpr ⟨fun next hnext => ?_, ih word h.2⟩
        rw [hfill] at hnext
        obtain rfl : " ".intercalate (word :: taken) = next := Option.some.inj hnext
        intro first hfirst
        rw [pieces_intercalate htaken] at hfirst
        obtain rfl : word = first := Option.some.inj hfirst
        omega
      case isFalse => exact ih _ h.2

/-- The last words of a line that may stand all go onto one line. -/
theorem fill_of_fits {line first : String} {front more : List String} (hfits : Fits width line)
    (hline : pieces line = front ++ first :: more) (rest : List String) :
    ∃ full, fill width first (more ++ rest) = fill width full rest := by
  rcases hfits with hsize | hone
  · refine ⟨_, fill_append first more rest (Nat.le_trans ?_ hsize)⟩
    rw [← intercalate_pieces line, hline]
    exact size_intercalate_le front first more
  · rw [hline, List.length_append, List.length_cons] at hone
    obtain rfl : more = [] := List.length_eq_zero_iff.mp (by omega)
    exact ⟨first, rfl⟩

/-- Filling the last words of some lines takes no more lines. The induction is on the lines, for all ends of their
words: a line that is filled up has taken what was left of the first of them, and may have gone on into the next. -/
theorem length_fillAll_le {lines : List String} (hfits : ∀ line ∈ lines, Fits width line) {words : List String}
    (h : words <:+ lines.flatMap pieces) : (fillAll width words).length ≤ lines.length := by
  induction lines generalizing words with
  | nil =>
      obtain rfl : words = [] := List.suffix_nil.mp h
      exact Nat.le_refl _
  | cons line lines ih =>
      rw [List.forall_mem_cons] at hfits
      obtain ⟨front, hfront⟩ := h
      rw [List.flatMap_cons] at hfront
      rcases List.append_eq_append_iff.mp hfront with ⟨kept, hline, rfl⟩ | ⟨gone, -, hrest⟩
      · cases kept with
        | nil => exact Nat.le_succ_of_le (ih hfits.2 List.suffix_rfl)
        | cons first more =>
            obtain ⟨full, hfull⟩ := fill_of_fits hfits.1 hline (lines.flatMap pieces)
            obtain ⟨taken, rest, hrest, hcons⟩ := fill_eq_cons width full (lines.flatMap pieces)
            rw [List.cons_append, fillAll, hfull, hcons, List.length_cons, List.length_cons]
            exact Nat.succ_le_succ (ih hfits.2 ⟨taken, hrest.symm⟩)
      · exact Nat.le_succ_of_le (ih hfits.2 ⟨gone, hrest.symm⟩)

/-- The lines of a text have its words in their order, what stands between its white space. None is empty, and none
is wider than the bound unless it is a single word; each had no room for the first word of the next. No other way to
break the words into such lines has fewer of them. -/
theorem wrap_breaks_least (h : 0 < width) (s : String) :
    let words := ((s.toList.splitOnP isBlank).filter (!·.isEmpty)).map String.ofList
    Breaks width words (wrap width s) ∧ "" ∉ wrap width s ∧ (wrap width s).IsChain (Full width) ∧
      ∀ lines, Breaks width words lines → (wrap width s).length ≤ lines.length := by
  have hblank : isBlank ' ' = true := by decide
  have hplain : ∀ word ∈ words s, pieces word = [word] := by
    intro word hword
    refine pieces_word fun hspace => ?_
    rw [(mem_words hword).2 _ hspace] at hblank
    cases hblank
  have hne : ∀ word ∈ words s, word ≠ "" := fun word hword => (mem_words hword).1
  have hleast : ∀ lines, Breaks width (words s) lines → (fillAll width (words s)).length ≤ lines.length :=
    fun lines hlines => length_fillAll_le hlines.fits (hlines.words ▸ List.suffix_rfl)
  rw [← words_eq_filter, wrap_eq_fillAll h]
  cases hwords : words s with
  | nil =>
      exact ⟨⟨rfl, List.forall_mem_nil _⟩, List.not_mem_nil, .nil, fun lines _ => Nat.zero_le _⟩
  | cons word rest =>
      rw [hwords] at hleast
      rw [hwords, List.forall_mem_cons] at hplain hne
      have hfits : Fits width word := .inr (by rw [hplain.1]; rfl)
      refine ⟨⟨?_, fits_of_mem_fill hfits hplain.2⟩, ?_, isChain_fill word hplain.2, hleast⟩
      · rw [fillAll, flatMap_fill word hplain.2, hplain.1, List.singleton_append]
      · exact fun hempty => ne_empty_of_mem_fill hne.1 hne.2 "" hempty rfl

/-- A text with a word that is wider than the bound, behind a line that is just as wide as the bound. -/
theorem wrap_breaks_least_wide_word :
    let lines := ["ab cd", "incomprehensible", "e f"]
    0 < 5 ∧ wrap 5 " ab cd\tincomprehensible\n e  f" = lines ∧
      Breaks 5 ["ab", "cd", "incomprehensible", "e", "f"] lines ∧ "" ∉ lines ∧ lines.IsChain (Full 5) ∧
      ∀ others, Breaks 5 ["ab", "cd", "incomprehensible", "e", "f"] others → 3 ≤ others.length := by
  intro lines
  have hwrap : wrap 5 " ab cd\tincomprehensible\n e  f" = lines := by decide +kernel
  have hwords : ((" ab cd\tincomprehensible\n e  f".toList.splitOnP isBlank).filter (!·.isEmpty)).map String.ofList =
      ["ab", "cd", "incomprehensible", "e", "f"] := by decide +kernel
  have hleast := wrap_breaks_least (by decide : 0 < 5) " ab cd\tincomprehensible\n e  f"
  rw [hwrap, hwords] at hleast
  exact ⟨by decide, hwrap, hleast⟩

end BlockLang.Text

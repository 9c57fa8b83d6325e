import BlockLang.Proofs.Coverage
import BlockLang.Proofs.Numerals

/-! The spelling of tokens. A lexeme is what a token says, apart from its place. Where a text holds the
spellings of some lexemes one after the other, with gaps between those that would run together, its
tokens are these lexemes. -/

namespace BlockLang

/-- What a token says, apart from its place. -/
structure Lexeme where
  kind : TokenKind
  text : String := ""
  deriving DecidableEq

def Token.lexeme (t : Token) : Lexeme := ⟨t.kind, t.text⟩

/-- The signs that nothing behind them can turn into another one. -/
def TokenKind.single : List (Char × TokenKind) :=
  [('+', plus), ('-', minus), ('*', star), ('/', slash), ('%', rem), ('$', dollar), (';', semi),
   ('\x7b', lbrace), ('\x7d', rbrace), ('(', lparen), (')', rparen)]

/-- The signs that become another one with an `=` behind them. -/
def TokenKind.paired : List (Char × TokenKind × TokenKind) :=
  [('=', eq, eqEq), ('<', lt, lte), ('>', gt, gte)]

def TokenKind.signs : List TokenKind :=
  neq :: (single.map Prod.snd ++ paired.flatMap fun sign => [sign.2.1, sign.2.2])

def TokenKind.words : List TokenKind := keywords.map Prod.snd

namespace Scan

/-- Letters, digits and underscores, of which the first is no digit. -/
def IsWord (cs : List Char) : Prop :=
  cs.head?.any isNameStart = true ∧ cs.all isNamePart = true

instance (cs : List Char) : Decidable (IsWord cs) := inferInstanceAs (Decidable (_ ∧ _))

/-- A word that may name a variable. -/
def IsName (s : String) : Prop := IsWord s.toList ∧ TokenKind.keywords.lookup s = none

instance (s : String) : Decidable (IsName s) := inferInstanceAs (Decidable (_ ∧ _))

/-- How a code point is written in a string literal. -/
def escape : Char → List Char
  | '\\' => ['\\', '\\']
  | '"' => ['\\', '"']
  | '\n' => ['\\', 'n']
  | '\t' => ['\\', 't']
  | c => [c]

end Scan

namespace Lexeme

open Scan

def spelling (l : Lexeme) : List Char :=
  match l.kind with
  | .ident | .number => l.text.toList
  | .string => '"' :: (l.text.toList.flatMap escape ++ ['"'])
  | kind => kind.name.toList

/-- Whether a code point right behind a lexeme is read as a part of it, or opens a comment with it. -/
def absorbs (l : Lexeme) (c : Char) : Bool :=
  if l.kind ∈ .ident :: .number :: TokenKind.words then isNamePart c
  else (l.kind, c) ∈ [(.eq, '='), (.lt, '='), (.gt, '='), (.slash, '/')]

def ofWord (s : String) : Lexeme :=
  match TokenKind.keywords.lookup s with
  | some kind => ⟨kind, ""⟩
  | none => ⟨.ident, s⟩

/-- The lexemes that can be read. -/
inductive Readable : Lexeme → Prop where
  | name {s : String} : IsName s → Readable ⟨.ident, s⟩
  | number {n : Nat} : n ≤ Nat.pow 2 63 → Readable ⟨.number, toString n⟩
  | string (s : String) : Readable ⟨.string, s⟩
  | word {kind : TokenKind} : kind ∈ TokenKind.words → Readable ⟨kind, ""⟩
  | sign {kind : TokenKind} : kind ∈ TokenKind.signs → Readable ⟨kind, ""⟩

/-- Some text may stand right behind a lexeme. -/
def Apart (l : Lexeme) (rest : List Char) : Prop := ∀ c ∈ rest.head?, l.absorbs c = false

/-- A text holds the spellings of some lexemes in order. There may be blanks and comments around them, and
there are some wherever two lexemes would run together. -/
inductive Layout : List Lexeme → List Char → Prop where
  | done {gap : List Char} : Gap true [] gap → Layout [] gap
  | next {l : Lexeme} {ls : List Lexeme} {gap rest : List Char} :
      Gap true (l.spelling ++ rest) gap → l.Apart rest → Layout ls rest →
      Layout (l :: ls) (gap ++ (l.spelling ++ rest))

/-- The shortest text: one blank wherever two lexemes would run together. -/
def write : List Lexeme → List Char
  | [] => []
  | l :: ls =>
    let rest := write ls
    l.spelling ++ if rest.head?.any l.absorbs then ' ' :: rest else rest

variable {l : Lexeme} {ls : List Lexeme} {c : Char} {rest : List Char}

theorem Apart.head_ne (h : l.Apart rest) (hc : l.absorbs c = true) : rest.head? ≠ some c := by
  intro hhead
  exact Bool.false_ne_true ((h c hhead).symm.trans hc)

theorem apart_blank (l : Lexeme) (rest : List Char) : l.Apart (' ' :: rest) := by
  rintro c ⟨⟩
  rw [absorbs]
  split
  · decide +kernel
  · simp

theorem Layout.blank (h : Layout ls rest) : Layout ls (' ' :: rest) := by
  cases h with
  | done hgap => exact .done (.blank (by decide) hgap)
  | next hgap hrest h => exact .next (.blank (by decide) hgap) hrest h

theorem layout_write (ls : List Lexeme) : Layout ls (write ls) := by
  induction ls with
  | nil => exact .done .nil
  | cons l ls ih =>
      rw [write]
      split
      case isTrue => exact .next .nil (l.apart_blank _) ih.blank
      case isFalse h => exact .next .nil (fun c hc => by simp_all) ih

theorem Readable.kind_ne_eof (h : l.Readable) : l.kind ≠ .eof := by
  have hwords : ∀ kind ∈ TokenKind.words, kind ≠ .eof := by decide
  have hsigns : ∀ kind ∈ TokenKind.signs, kind ≠ .eof := by decide
  cases h with
  | name | number | string => exact TokenKind.noConfusion
  | word hkind => exact hwords _ hkind
  | sign hkind => exact hsigns _ hkind

end Lexeme

namespace Scan

variable {settings : Settings} {file : Int} {comments : Bool} {p start : Position} {c : Char}
  {cs rest behind gap : List Char}

/-- A comment is left at the end of its line. -/
theorem skipBlanks_comment (hline : '\n' ∉ cs) (hrest : ∀ c ∈ rest.head?, c = '\n') :
    skipBlanks comments true (cs ++ rest) p = skipBlanks comments false rest (p.advance cs) := by
  induction cs generalizing p with
  | nil =>
      cases rest with
      | nil => rfl
      | cons c rest =>
          obtain rfl : c = '\n' := hrest c rfl
          rfl
  | cons c cs ih =>
      have hc : c ≠ '\n' := fun h => hline (h ▸ List.mem_cons_self)
      rw [List.cons_append, skipBlanks, if_pos (by simp [hc])]
      exact ih fun h => hline (List.mem_cons_of_mem _ h)

/-- Blanks and comments are skipped as a whole. -/
theorem skipBlanks_of_gap (h : Gap comments behind gap) :
    skipBlanks comments false (gap ++ behind) p = skipBlanks comments false behind (p.advance gap) := by
  induction h generalizing p with
  | nil => rfl
  | blank hc _ ih =>
      rw [List.cons_append, skipBlanks, if_neg (by simp), if_pos (isBlank_iff.mpr hc)]
      exact ih
  | @comment text rest hcomments htext hend _ ih =>
      have hline : '\n' ∉ '/' :: text := by simp [htext]
      have hopening :
          (comments && '/' == '/' && ('/' :: text ++ rest ++ behind).head? == some '/') = true := by
        simp [hcomments]
      calc skipBlanks comments false ('/' :: ('/' :: text ++ rest ++ behind)) p
        _ = skipBlanks comments true ('/' :: text ++ (rest ++ behind)) (p.after '/') := by
          rw [skipBlanks, if_neg (by simp), if_neg (by decide), if_pos hopening, List.append_assoc]
        _ = skipBlanks comments false (rest ++ behind) ((p.after '/').advance ('/' :: text)) :=
          skipBlanks_comment hline hend
        _ = skipBlanks comments false behind (((p.after '/').advance ('/' :: text)).advance rest) := ih
        _ = skipBlanks comments false behind (p.advance ('/' :: '/' :: text ++ rest)) := by
          simp [Position.advance]

/-- A step does not depend on the gap in front of it, save for its place. -/
theorem next_of_gap (h : Gap (settings.feature .comments) behind gap) :
    next settings file ⟨gap ++ behind, p⟩ = next settings file ⟨behind, p.advance gap⟩ := by
  simp only [next, skipBlanks_of_gap h]

/-- Nothing is skipped in front of a code point that opens no gap. -/
theorem skipBlanks_of_open (hblank : isBlank c = false) (hcomment : c = '/' → cs.head? ≠ some '/') :
    skipBlanks comments false (c :: cs) p = ⟨c :: cs, p⟩ := by
  have hopening : ¬(comments && c == '/' && cs.head? == some '/') = true := by
    simpa using fun _ h => hcomment h
  rw [skipBlanks, if_neg (by simp), if_neg (by simp [hblank]), if_neg hopening]

theorem skipBlanks_of_class {q : Char → Bool} (hc : q c = true)
    (hq : [' ', '\t', '\r', '\n', '/'].any q = false) :
    skipBlanks comments false (c :: cs) p = ⟨c :: cs, p⟩ := by
  have hne : ∀ d ∈ [' ', '\t', '\r', '\n', '/'], c ≠ d := by
    rintro d hd rfl
    exact List.any_eq_false.mp hq c hd hc
  refine skipBlanks_of_open ?_ fun h => absurd h (hne '/' (by decide))
  rw [Bool.eq_false_iff]
  intro hblank
  exact hne c (List.mem_append_left ['/'] (isBlank_iff.mp hblank)) rfl

/-! ### Lexemes -/

/-- A step reads a lexeme in front of some text, without a warning. -/
def Reads (settings : Settings) (file : Int) (l : Lexeme) (rest : List Char) : Prop :=
  ∀ start, next settings file ⟨l.spelling ++ rest, start⟩ =
    { outcome := .ok (span file start (start.advance l.spelling) l.kind l.text)
      cursor := ⟨rest, start.advance l.spelling⟩ }

theorem takeWhile_append_stop {q : Char → Bool} (hcs : ∀ c ∈ cs, q c = true)
    (hrest : ∀ c ∈ rest.head?, q c = false) :
    (cs ++ rest).takeWhile q = cs ∧ (cs ++ rest).dropWhile q = rest := by
  rw [List.takeWhile_append_of_pos hcs, List.dropWhile_append_of_pos hcs]
  cases rest with
  | nil => simp
  | cons c rest => simp [hrest c rfl]

/-- A word is read as a keyword if it is one, and otherwise as a name. -/
theorem reads_ofWord {s : String} {l : Lexeme} (hs : IsWord s.toList) (hl : Lexeme.ofWord s = l)
    (hspelling : l.spelling = s.toList) (hrest : ∀ c ∈ rest.head?, isNamePart c = false) :
    Reads settings file l rest := by
  intro start
  obtain ⟨hhead, hparts⟩ := hs
  obtain ⟨htake, hdrop⟩ := takeWhile_append_stop (List.all_eq_true.mp hparts) hrest
  have hnext : next settings file ⟨s.toList ++ rest, start⟩ = word file start (s.toList ++ rest) := by
    cases hcs : s.toList with
    | nil =>
        rw [hcs] at hhead
        cases hhead
    | cons c cs =>
        rw [hcs] at hhead
        have hc : isNameStart c = true := hhead
        rw [List.cons_append, next, skipBlanks_of_class hc (by decide +kernel)]
        simp only [hc, if_true]
  rw [hspelling, hnext, ← hl, Lexeme.ofWord]
  simp only [word, htake, hdrop, String.ofList_toList]
  cases TokenKind.keywords.lookup s <;> rfl

theorem reads_name {s : String} (hs : IsName s) (hrest : Lexeme.Apart ⟨.ident, s⟩ rest) :
    Reads settings file ⟨.ident, s⟩ rest := by
  have hl : Lexeme.ofWord s = ⟨.ident, s⟩ := by
    rw [Lexeme.ofWord, hs.2]
  exact reads_ofWord hs.1 hl rfl hrest

theorem reads_keyword {kind : TokenKind} (hkind : kind ∈ TokenKind.words)
    (hrest : Lexeme.Apart ⟨kind, ""⟩ rest) : Reads settings file ⟨kind, ""⟩ rest := by
  have htable : ∀ kind ∈ TokenKind.words, IsWord kind.name.toList ∧
      Lexeme.ofWord kind.name = ⟨kind, ""⟩ ∧ Lexeme.spelling ⟨kind, ""⟩ = kind.name.toList := by
    decide +kernel
  have hparts : ∀ c ∈ rest.head?, isNamePart c = false := by
    intro c hc
    have habsorbs := hrest c hc
    rwa [Lexeme.absorbs, if_pos (List.mem_cons_of_mem _ (List.mem_cons_of_mem _ hkind))] at habsorbs
  obtain ⟨hword, hl, hspelling⟩ := htable kind hkind
  exact reads_ofWord hword hl hspelling hparts

/-- The digits of numerals are the first of all digits, and they lie below all letters. -/
theorem isDigit_of_ascii (h : c.isDigit = true) : Text.isDigit c = true ∧ isNameStart c = false := by
  rw [Char.isDigit, Bool.and_eq_true, decide_eq_true_iff, decide_eq_true_iff] at h
  have hlow : 48 ≤ c.toNat := h.1
  have hhigh : c.toNat ≤ 57 := h.2
  have hletter : Text.isLetter c = false := if_pos (Nat.lt_of_le_of_lt hhigh (by decide))
  have hne : c ≠ '_' := by
    rintro rfl
    exact absurd hhigh (by decide)
  refine ⟨?_, by simp [isNameStart, hletter, hne]⟩
  exact (if_neg (Nat.not_lt.mpr hlow)).trans (if_pos hhigh)

theorem next_digits (hne : cs ≠ []) (hcs : ∀ c ∈ cs, c.isDigit = true) :
    next settings file ⟨cs ++ rest, start⟩ = number file start (cs ++ rest) := by
  obtain ⟨c, cs, rfl⟩ := List.exists_cons_of_ne_nil hne
  obtain ⟨hdigit, hname⟩ := isDigit_of_ascii (hcs c List.mem_cons_self)
  rw [List.cons_append, next, skipBlanks_of_class hdigit (by decide +kernel)]
  simp only [hname, hdigit, Bool.false_eq_true, if_false, if_true]

/-- Behind digits there is no more of a number if no name could go on there. -/
theorem digits_split (hcs : ∀ c ∈ cs, c.isDigit = true) (hrest : ∀ c ∈ rest.head?, isNamePart c = false) :
    ((cs ++ rest).takeWhile Text.isDigit = cs ∧ (cs ++ rest).dropWhile Text.isDigit = rest) ∧
      rest.takeWhile isNameStart = [] ∧ rest.dropWhile isNameStart = rest := by
  have hparts : ∀ c ∈ rest.head?, Text.isDigit c = false ∧ isNameStart c = false := by
    intro c hc
    have hpart : isNamePart c = false := hrest c hc
    simp only [isNamePart, isNameStart, Bool.or_eq_false_iff] at hpart ⊢
    exact ⟨hpart.1.2, hpart.1.1, hpart.2⟩
  refine ⟨takeWhile_append_stop (fun c hc => (isDigit_of_ascii (hcs c hc)).1)
    fun c hc => (hparts c hc).1, ?_⟩
  exact takeWhile_append_stop (List.forall_mem_nil _) fun c hc => (hparts c hc).2

theorem number_of_ok {value : Nat} (hcs : ∀ c ∈ cs, c.isDigit = true)
    (hrest : ∀ c ∈ rest.head?, isNamePart c = false) (hread : Text.readUnsigned cs = .ok value)
    (hvalue : value ≤ Nat.pow 2 63) :
    number file start (cs ++ rest) =
      { outcome := .ok (span file start (start.advance cs) .number (toString value))
        cursor := ⟨rest, start.advance cs⟩ } := by
  obtain ⟨⟨htake, hdrop⟩, hnone, hbehind⟩ := digits_split hcs hrest
  simp only [number, htake, hdrop, hnone, hbehind, List.append_nil, hread, Nat.not_lt.mpr hvalue, if_false]
  rfl

theorem reads_number {n : Nat} (hn : n ≤ Nat.pow 2 63)
    (hrest : Lexeme.Apart ⟨.number, toString n⟩ rest) :
    Reads settings file ⟨.number, toString n⟩ rest := by
  intro start
  have hascii : ∀ c ∈ (toString n).toList, c.isDigit = true := fun c => Text.isDigit_of_mem_toString
  have hread : Text.readUnsigned (toString n).toList = .ok n :=
    Text.readUnsigned_toString (Nat.le_trans hn (by decide))
  have hne : (toString n).toList ≠ [] := by
    intro hnil
    rw [hnil] at hread
    cases hread
  exact (next_digits hne hascii).trans (number_of_ok hascii hrest hread hn)

/-- A code point is written as an escape that stands for it, or as itself. -/
theorem escape_cases (c : Char) :
    (∃ d, escape c = ['\\', d] ∧ unescape? d = some c) ∨
      escape c = [c] ∧ c ≠ '\\' ∧ c ≠ '"' ∧ c ≠ '\n' := by
  rw [escape.eq_def]
  split
  case h_5 hslash hquote hline _ => exact .inr ⟨rfl, hslash, hquote, hline⟩
  all_goals exact .inl ⟨_, rfl, rfl⟩

/-- The content of a literal is read back from its escapes. -/
theorem literal_escape (content rest : List Char) :
    literal true file (content.flatMap escape ++ '"' :: rest) p =
      { content, closed := true, cursor := ⟨rest, p.advance (content.flatMap escape ++ ['"'])⟩ } := by
  induction content generalizing p with
  | nil => rfl
  | cons c content ih =>
      rw [List.flatMap_cons, List.append_assoc, List.append_assoc]
      rcases escape_cases c with ⟨d, hescape, hmeant⟩ | ⟨hescape, hslash, hquote, hline⟩
      · rw [hescape, List.cons_append, List.cons_append, List.nil_append, literal, if_pos rfl]
        simp only [hmeant, ih]
        rfl
      · rw [hescape, List.cons_append, List.nil_append, literal, ih]
        · rfl
        · exact hquote
        · exact hline
        · exact fun d ds h => absurd h hslash

/-- The code points that begin signs and string literals. -/
def symbols : List Char :=
  ['=', '!', '<', '>', '+', '-', '*', '/', '%', '$', ';', '\x7b', '\x7d', '(', ')', '"']

/-- A symbol opens no gap, no word and no number. -/
theorem skipBlanks_symbol (hc : c ∈ symbols) (hcomment : c = '/' → cs.head? ≠ some '/') :
    skipBlanks comments false (c :: cs) p = ⟨c :: cs, p⟩ ∧ isNameStart c = false ∧
      Text.isDigit c = false := by
  have hblank : symbols.any isBlank = false := by decide
  have hname : symbols.any isNameStart = false := by decide +kernel
  have hdigit : symbols.any Text.isDigit = false := by decide +kernel
  have hclass {q : Char → Bool} (hq : symbols.any q = false) : q c = false :=
    Bool.eq_false_iff.mpr (List.any_eq_false.mp hq c hc)
  exact ⟨skipBlanks_of_open (hclass hblank) hcomment, hclass hname, hclass hdigit⟩

theorem next_quote (cs : List Char) : next settings file ⟨'"' :: cs, start⟩ =
    string (settings.feature .escapes) file start cs := by
  obtain ⟨hskip, hname, hdigit⟩ := skipBlanks_symbol (c := '"') (by decide) fun h => absurd h (by decide)
  rw [next, hskip]
  simp only [hname, hdigit, Bool.false_eq_true, if_false]

theorem reads_string (s : String) (hescapes : settings.feature .escapes = true) :
    Reads settings file ⟨.string, s⟩ rest := by
  intro start
  have hspelling : Lexeme.spelling ⟨.string, s⟩ ++ rest =
      '"' :: (s.toList.flatMap escape ++ '"' :: rest) := by
    simp [Lexeme.spelling]
  rw [hspelling, next_quote, hescapes]
  simp only [string, literal_escape, if_true, String.ofList_toList]
  rfl

theorem next_single {kind : TokenKind} (hsign : (c, kind) ∈ TokenKind.single)
    (hcomment : c = '/' → rest.head? ≠ some '/') (hremainder : settings.feature .remainder = true)
    (hstringify : settings.feature .stringify = true) :
    next settings file ⟨c :: rest, start⟩ =
      { outcome := .ok (span file start (start.after c) kind "")
        cursor := ⟨rest, start.after c⟩ } := by
  have htable : ∀ sign ∈ TokenKind.single, sign.1 ∈ symbols := by decide
  obtain ⟨hskip, hname, hdigit⟩ := skipBlanks_symbol (htable _ hsign) hcomment
  rw [next, hskip]
  simp only [hname, hdigit, Bool.false_eq_true, if_false]
  simp only [TokenKind.single, List.mem_cons, Prod.mk.injEq, List.not_mem_nil, or_false] at hsign
  rcases hsign with ⟨rfl, rfl⟩ | ⟨rfl, rfl⟩ | ⟨rfl, rfl⟩ | ⟨rfl, rfl⟩ | ⟨rfl, rfl⟩ | ⟨rfl, rfl⟩ |
    ⟨rfl, rfl⟩ | ⟨rfl, rfl⟩ | ⟨rfl, rfl⟩ | ⟨rfl, rfl⟩ | ⟨rfl, rfl⟩ <;>
    simp only [hremainder, hstringify, if_true]

theorem next_paired {one two : TokenKind} (hsign : (c, one, two) ∈ TokenKind.paired) :
    next settings file ⟨c :: rest, start⟩ = sign file start c rest one two := by
  have htable : ∀ sign ∈ TokenKind.paired, sign.1 ≠ '/' ∧ sign.1 ∈ symbols := by decide
  obtain ⟨hslash, hc⟩ := htable _ hsign
  obtain ⟨hskip, hname, hdigit⟩ := skipBlanks_symbol hc fun h => absurd h hslash
  rw [next, hskip]
  simp only [hname, hdigit, Bool.false_eq_true, if_false]
  simp only [TokenKind.paired, List.mem_cons, Prod.mk.injEq, List.not_mem_nil, or_false] at hsign
  rcases hsign with ⟨rfl, rfl, rfl⟩ | ⟨rfl, rfl, rfl⟩ | ⟨rfl, rfl, rfl⟩ <;> rfl

theorem next_unequal (rest : List Char) : next settings file ⟨'!' :: '=' :: rest, start⟩ =
    sign file start '!' ('=' :: rest) .neq .neq := by
  obtain ⟨hskip, hname, hdigit⟩ := skipBlanks_symbol (c := '!') (by decide) fun h => absurd h (by decide)
  rw [next, hskip]
  simp only [hname, hdigit, Bool.false_eq_true, if_false]

theorem sign_of_head {one two : TokenKind} (h : rest.head? ≠ some '=') :
    sign file start c rest one two =
      { outcome := .ok (span file start (start.after c) one ""), cursor := ⟨rest, start.after c⟩ } := by
  rw [sign.eq_def]
  split
  case h_1 => exact absurd rfl h
  case h_2 => rfl

/-- A sign is read unless what follows makes it a longer one. -/
theorem reads_sign {kind : TokenKind} (hkind : kind ∈ TokenKind.signs)
    (hrest : Lexeme.Apart ⟨kind, ""⟩ rest) (hremainder : settings.feature .remainder = true)
    (hstringify : settings.feature .stringify = true) : Reads settings file ⟨kind, ""⟩ rest := by
  intro start
  rcases List.mem_cons.mp hkind with rfl | hkind
  · exact next_unequal rest
  rcases List.mem_append.mp hkind with hkind | hkind
  · have htable : ∀ sign ∈ TokenKind.single, Lexeme.spelling ⟨sign.2, ""⟩ = [sign.1] ∧
        (sign.1 = '/' → Lexeme.absorbs ⟨sign.2, ""⟩ '/' = true) := by
      decide +kernel
    obtain ⟨⟨c, kind⟩, hsign, rfl⟩ := List.mem_map.mp hkind
    obtain ⟨hspelling, hslash⟩ := htable _ hsign
    rw [hspelling]
    exact next_single hsign (fun hc => hrest.head_ne (hslash hc)) hremainder hstringify
  · have htable : ∀ sign ∈ TokenKind.paired, Lexeme.spelling ⟨sign.2.1, ""⟩ = [sign.1] ∧
        Lexeme.absorbs ⟨sign.2.1, ""⟩ '=' = true ∧ Lexeme.spelling ⟨sign.2.2, ""⟩ = [sign.1, '='] := by
      decide +kernel
    obtain ⟨⟨c, one, two⟩, hsign, hkind⟩ := List.mem_flatMap.mp hkind
    obtain ⟨hone, hequals, htwo⟩ := htable _ hsign
    rcases List.mem_pair.mp hkind with rfl | rfl
    · rw [hone]
      exact (next_paired hsign).trans (sign_of_head (hrest.head_ne hequals))
    · rw [htwo]
      exact next_paired hsign

section Layouts

variable {l : Lexeme} {ls : List Lexeme} {text : List Char}

theorem reads_of_readable (hfeatures : settings.feature = ({} : Settings).feature) (hl : l.Readable)
    (hrest : l.Apart rest) : Reads settings file l rest := by
  have hon : ∀ feature, settings.feature feature = true := fun feature => by rw [hfeatures]
  cases hl with
  | name hs => exact reads_name hs hrest
  | number hn => exact reads_number hn hrest
  | string s => exact reads_string s (hon .escapes)
  | word hkind => exact reads_keyword hkind hrest
  | sign hkind => exact reads_sign hkind hrest (hon .remainder) (hon .stringify)

theorem collect_stepsFrom_succ {count : Nat} {cursor after : Cursor} {t : Token} {tokens : List Token}
    (hstep : next settings file cursor = { outcome := .ok t, cursor := after }) (ht : t.kind ≠ .eof)
    (hrest : collect (stepsFrom settings file count after) = ([], .ok tokens)) :
    collect (stepsFrom settings file (count + 1) cursor) = ([], .ok (t :: tokens)) := by
  have hlast : (next settings file cursor).isLast = false := by
    rw [hstep]
    exact beq_false_of_ne ht
  rw [stepsFrom, if_neg (by rw [hlast]; exact Bool.false_ne_true), hstep, collect]
  simp only [hrest, List.append_nil, Except.map]

/-- The tokens of a layout are its lexemes, and one that marks the end. -/
theorem collect_layout (hfeatures : settings.feature = ({} : Settings).feature)
    (h : Lexeme.Layout ls text) (hls : ∀ l ∈ ls, l.Readable) {count : Nat} (hcount : ls.length < count) :
    ∃ tokens last, collect (stepsFrom settings file count ⟨text, p⟩) = ([], .ok (tokens ++ [last])) ∧
      tokens.map Token.lexeme = ls ∧ last.kind = .eof := by
  have hcomments : settings.feature .comments = true := by rw [hfeatures]
  induction h generalizing count p with
  | @done gap hgap =>
      rw [← hcomments] at hgap
      have hstep : next settings file ⟨gap, p⟩ = next settings file ⟨[], p.advance gap⟩ := by
        rw [← next_of_gap hgap, List.append_nil]
      cases count with
      | zero => omega
      | succ count =>
          refine ⟨[], span file (p.advance gap) (p.advance gap) .eof "", ?_, rfl, rfl⟩
          rw [stepsFrom, hstep]
          rfl
  | @next l ls gap rest hgap hrest _ ih =>
      obtain ⟨hl, hls⟩ := List.forall_mem_cons.mp hls
      rw [← hcomments] at hgap
      have hreads : Reads settings file l rest := reads_of_readable hfeatures hl hrest
      cases count with
      | zero => omega
      | succ count =>
          obtain ⟨tokens, last, hcollect, hlexemes, hlast⟩ := ih hls (Nat.lt_of_succ_lt_succ hcount)
          have hstep := (next_of_gap hgap).trans (hreads (p.advance gap))
          refine ⟨_ :: tokens, last, collect_stepsFrom_succ hstep hl.kind_ne_eof hcollect, ?_, hlast⟩
          rw [List.map_cons, hlexemes]
          rfl

/-- A layout is scanned without a warning, and its tokens are its lexemes and one that marks the end. -/
theorem tokenize_layout (hfeatures : settings.feature = ({} : Settings).feature)
    (h : Lexeme.Layout ls text) (hls : ∀ l ∈ ls, l.Readable) :
    ∃ tokens last, tokenize settings file text = ([], .ok (tokens ++ [last])) ∧
      tokens.map Token.lexeme = ls ∧ last.kind = .eof := by
  rw [tokenize, steps, ← stepsFrom_add (Nat.lt_succ_self _) ls.length]
  exact collect_layout hfeatures h hls (by omega)

end Layouts

end Scan

end BlockLang

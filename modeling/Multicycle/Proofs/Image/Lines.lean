/-
A hex image line by line. A text of lines that are blank or spell a word gives these words in their
order, whatever the margins of the lines are and in which of the two ways they end. The first line
that is malformed is reported with its number, counted over all lines, whatever comes after it.
-/
import Multicycle.Proofs.Image.Margins
import Multicycle.Proofs.Image.Spelling

namespace Multicycle.Image.Hex

/-! ## Lines -/

/-- A line that is blank, but for a comment, or spells a word. -/
structure Line where
  margins : Margins
  spelling? : Option Spelling

namespace Line
variable (l : Line)

def held : List Char := l.spelling?.elim [] Spelling.chars

def chars : List Char := l.margins.around l.held

def word? : Option Word := l.spelling?.map Spelling.word

theorem fits_held : l.margins.Fits l.held := by
  refine Margins.fits_of_plain l.margins fun c hc => ?_
  unfold held at hc
  cases hs : l.spelling? with
  | none =>
    rw [hs] at hc
    cases hc
  | some s =>
    have hplain : ('x' :: 'X' :: Glyph.alphabet).all plain = true := by decide
    rw [hs] at hc
    exact List.all_eq_true.1 hplain c (s.chars_subset hc)

theorem feed_not_mem_chars : '\n' ∉ l.chars := l.fits_held.feed_not_mem_around

end Line

inductive Ending where
  | feed
  | returnFeed
  deriving DecidableEq

namespace Ending

/-- What an ending has before its line feed. -/
def blanks : Ending → List Char
  | feed => []
  | returnFeed => ['\r']

def chars (e : Ending) : List Char := e.blanks ++ ['\n']

theorem isBlank_blanks (e : Ending) : ∀ c ∈ e.blanks, isBlank c = true := by
  cases e <;> exact List.all_eq_true.1 rfl

theorem feed_not_mem_blanks (e : Ending) : '\n' ∉ e.blanks := by
  cases e <;> decide

end Ending

/-- Lines that have all ended. -/
def text (ls : List (Line × Ending)) : List Char := ls.flatMap fun l => l.1.chars ++ l.2.chars

theorem lines_of_feed_not_mem {l : List Char} (h : '\n' ∉ l) : lines l = [l] := by
  induction l with
  | nil => rfl
  | cons c l ih =>
    rw [List.mem_cons, not_or] at h
    rw [lines, if_neg (Ne.symm h.1), ih h.2]

/-- A text is cut at its first line feed. -/
theorem lines_append_feed {l : List Char} (h : '\n' ∉ l) (cs : List Char) :
    lines (l ++ '\n' :: cs) = l :: lines cs := by
  induction l with
  | nil => rfl
  | cons c l ih =>
    rw [List.mem_cons, not_or] at h
    rw [List.cons_append, lines, if_neg (Ne.symm h.1), ih h.2]

theorem lines_append_ending {l : List Char} (h : '\n' ∉ l) (e : Ending) (cs : List Char) :
    lines (l ++ e.chars ++ cs) = (l ++ e.blanks) :: lines cs := by
  have hnot : '\n' ∉ l ++ e.blanks := by
    rw [List.mem_append, not_or]
    exact ⟨h, e.feed_not_mem_blanks⟩
  rw [← lines_append_feed hnot]
  simp [Ending.chars]

theorem lines_text_append (ls : List (Line × Ending)) (cs : List Char) :
    lines (text ls ++ cs) = ls.map (fun l => l.1.chars ++ l.2.blanks) ++ lines cs := by
  induction ls with
  | nil => rfl
  | cons l ls ih =>
    have hcons : text (l :: ls) ++ cs = l.1.chars ++ l.2.chars ++ (text ls ++ cs) := by
      simp [text]
    rw [hcons, lines_append_ending l.1.feed_not_mem_chars, ih]
    rfl

/-! ## Images -/

/-- A line adds its word to what is read, if it has one, and counts in either case. -/
theorem readLines_line (first : Nat) (l : Line) {blanks : List Char}
    (hblanks : ∀ c ∈ blanks, isBlank c = true) (rest : List (List Char)) :
    readLines first ((l.chars ++ blanks) :: rest) =
      (l.word?.toList ++ ·) <$> readLines (first + 1) rest := by
  have hbody : body (l.chars ++ blanks) = l.held := by
    rw [body_append_blanks hblanks]
    exact l.fits_held.body_around
  rw [readLines, hbody]
  unfold Line.held Line.word?
  cases l.spelling? with
  | none => simp
  | some s =>
    rw [Option.elim_some, if_neg (mt List.isEmpty_iff.1 s.chars_ne_nil), s.word?_chars]
    cases readLines (first + 1) rest <;> rfl

theorem readLines_lines (first : Nat) (ls : List (Line × Ending)) (rest : List (List Char)) :
    readLines first (ls.map (fun l => l.1.chars ++ l.2.blanks) ++ rest) =
      ((ls.map Prod.fst).filterMap Line.word? ++ ·) <$> readLines (first + ls.length) rest := by
  induction ls generalizing first with
  | nil =>
    rw [List.map_nil, List.map_nil, List.filterMap_nil]
    exact (id_map _).symm
  | cons l ls ih =>
    -- Lines without a word count as well: the number goes up by one with each of them.
    have hcount : first + 1 + ls.length = first + (l :: ls).length := by
      rw [List.length_cons]
      omega
    rw [List.map_cons, List.cons_append, readLines_line first l.1 l.2.isBlank_blanks, ih, hcount,
      Functor.map_map]
    congr 1
    funext ws
    cases hword : l.1.word? <;> simp [hword]

/-- The line behind the last line feed has its word read too. -/
theorem readLines_last (first : Nat) (last : Option Line) :
    readLines first (lines (last.elim [] Line.chars)) =
      .ok (last.toList.filterMap Line.word?) := by
  cases last with
  | none => rfl
  | some l =>
    have hline := readLines_line first l (List.forall_mem_nil _) []
    rw [List.append_nil] at hline
    rw [Option.elim_some, lines_of_feed_not_mem l.feed_not_mem_chars, hline]
    cases hword : l.word? <;> simp [hword] <;> rfl

section
variable {m : Margins} {b rest : List Char} (hfits : m.Fits b)
include hfits

/-- A line that holds `b` is the first of its text, but for blanks that its ending may leave. -/
theorem exists_lines_eq_cons {after : List Char}
    (hafter : after = [] ∨ ∃ e : Ending, e.chars <+: after) :
    ∃ blanks later, (∀ c ∈ blanks, isBlank c = true) ∧
      lines (m.around b ++ after) = (m.around b ++ blanks) :: later := by
  rcases hafter with rfl | ⟨e, cs, rfl⟩
  · refine ⟨[], [], List.forall_mem_nil _, ?_⟩
    rw [List.append_nil, lines_of_feed_not_mem hfits.feed_not_mem_around]
  · refine ⟨e.blanks, lines cs, e.isBlank_blanks, ?_⟩
    rw [← List.append_assoc, lines_append_ending hfits.feed_not_mem_around]

theorem readLines_malformed (first : Nat) (hne : b ≠ []) (hrest : Unmarked b rest)
    (hmalformed : Malformed rest) {blanks : List Char} (hblanks : ∀ c ∈ blanks, isBlank c = true)
    (later : List (List Char)) :
    readLines first ((m.around b ++ blanks) :: later) =
      .error (.invalidHexWord first (String.ofList b)) := by
  have hbody : body (m.around b ++ blanks) = b := by
    rw [body_append_blanks hblanks, hfits.body_around]
  rw [readLines, hbody, hmalformed.word?_eq_none hrest, if_neg (mt List.isEmpty_iff.1 hne)]

end

/-- A text whose lines are all blank or spell a word, the last of them with or without an ending, is
read as these words. Where a malformed line follows such lines, it is reported with its number and
what it holds, and what comes after it does not matter. -/
theorem read_text (ls : List (Line × Ending)) :
    (∀ last : Option Line,
      read (String.ofList (text ls ++ last.elim [] Line.chars)) =
        .ok ((ls.map Prod.fst ++ last.toList).filterMap Line.word?)) ∧
    ∀ (m : Margins) (b rest after : List Char), m.Fits b → b ≠ [] → Unmarked b rest →
      Malformed rest → (after = [] ∨ ∃ e : Ending, e.chars <+: after) →
      read (String.ofList (text ls ++ m.around b ++ after)) =
        .error (.invalidHexWord (ls.length + 1) (String.ofList b)) := by
  have hread : ∀ cs, read (String.ofList (text ls ++ cs)) =
      ((ls.map Prod.fst).filterMap Line.word? ++ ·) <$> readLines (1 + ls.length) (lines cs) := by
    intro cs
    unfold read
    rw [String.toList_ofList, lines_text_append, readLines_lines]
  constructor
  · intro last
    rw [hread, readLines_last, List.filterMap_append]
    rfl
  · intro m b rest after hfits hne hrest hmalformed hafter
    obtain ⟨blanks, later, hblanks, hlines⟩ := exists_lines_eq_cons hfits hafter
    rw [List.append_assoc, hread, hlines,
      readLines_malformed hfits _ hne hrest hmalformed hblanks, Nat.add_comm]
    rfl

/-- Comments within comments, both endings, a line with nothing on it and a last line without an
ending. In the other text the third line has a digit too many. -/
theorem read_text_mixed :
    read "\t0X00_1f  # a // b\r\n// c # d\n\ndead_BEEF" = .ok [0x1f#32, 0xdeadbeef#32] ∧
      read "\t0X00_1f  # a // b\r\n// c # d\n 0x1_0000_0000 // big\r\nzz" =
        .error (.invalidHexWord 3 "0x1_0000_0000") := by
  have hblanks : ∀ {cs : List Char}, cs.all isBlank = true → ∀ c ∈ cs, isBlank c = true :=
    List.all_eq_true.1
  let small : Line :=
    ⟨⟨['\t'], [' ', ' '], "# a // b".toList, hblanks rfl, hblanks rfl, by decide, by decide⟩,
      some ⟨0x1f#32, .capital,
        [.digit 0 false, .digit 0 false, .separator, .digit 1 false, .digit 15 false],
        by decide, by decide⟩⟩
  let remark : Line :=
    ⟨⟨[], [], "// c # d".toList, hblanks rfl, hblanks rfl, by decide, by decide⟩, none⟩
  let empty : Line := ⟨⟨[], [], [], hblanks rfl, hblanks rfl, by decide, by decide⟩, none⟩
  let last : Line :=
    ⟨⟨[], [], [], hblanks rfl, hblanks rfl, by decide, by decide⟩,
      some ⟨0xdeadbeef#32, .none,
        [.digit 13 false, .digit 14 false, .digit 10 false, .digit 13 false, .separator,
          .digit 11 true, .digit 14 true, .digit 14 true, .digit 15 true],
        by decide, by decide⟩⟩
  let m : Margins :=
    ⟨[' '], [' '], "// big".toList, hblanks rfl, hblanks rfl, by decide, by decide⟩
  let zeros : List Glyph := .separator :: List.replicate 4 (.digit 0 false)
  have hfits : m.Fits "0x1_0000_0000".toList := m.fits_of_plain (List.all_eq_true.1 (by decide))
  constructor
  · exact (read_text [(small, .returnFeed), (remark, .feed), (empty, .feed)]).1 (some last)
  · exact (read_text [(small, .returnFeed), (remark, .feed)]).2 m "0x1_0000_0000".toList
      "1_0000_0000".toList "\r\nzz".toList hfits (by decide) (.small _)
      (.large (.digit 1 false :: (zeros ++ zeros)) (by decide) (by decide))
      (.inr ⟨.returnFeed, by decide⟩)

end Multicycle.Image.Hex

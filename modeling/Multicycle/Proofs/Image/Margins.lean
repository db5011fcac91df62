/-
What a line of a hex image has around its body: blanks on both sides, and a comment that runs to the
end of the line. Every line can be cut into margins and what is between them, and that is its body.
-/
import Multicycle.Image.Hex
import Mathlib.Data.List.TakeWhile
import Mathlib.Tactic

namespace Multicycle.Image.Hex

/-! ## Comments -/

/-- A comment starts at the first of these characters. -/
def StartsComment (cs : List Char) : Prop := ['#'] <+: cs ∨ ['/', '/'] <+: cs

instance : DecidablePred StartsComment := fun cs =>
  inferInstanceAs (Decidable (['#'] <+: cs ∨ ['/', '/'] <+: cs))

theorem startsComment_cons_iff {c : Char} {cs : List Char} :
    StartsComment (c :: cs) ↔ c = '#' ∨ c = '/' ∧ cs.head? = some '/' := by
  unfold StartsComment
  cases cs <;> simp [List.cons_prefix_cons, eq_comm]

theorem stripComment_of_starts {cs : List Char} (h : StartsComment cs) : stripComment cs = [] := by
  obtain ⟨_, rfl⟩ | ⟨_, rfl⟩ := h <;> rfl

theorem stripComment_cons {c : Char} {cs : List Char} (h : ¬ StartsComment (c :: cs)) :
    stripComment (c :: cs) = c :: stripComment cs := by
  rw [startsComment_cons_iff, not_or] at h
  rw [stripComment]
  · exact h.1
  · rintro rest rfl rfl
    exact h.2 ⟨rfl, rfl⟩

/-- A line is cut where its first comment starts. -/
theorem stripComment_append {kept comment : List Char}
    (hcomment : comment = [] ∨ StartsComment comment)
    (hkept : ∀ i < kept.length, ¬ StartsComment ((kept ++ comment).drop i)) :
    stripComment (kept ++ comment) = kept := by
  induction kept with
  | nil =>
    rcases hcomment with rfl | hstarts
    · rfl
    · exact stripComment_of_starts hstarts
  | cons c kept ih =>
    have hhere : ¬ StartsComment (c :: (kept ++ comment)) := hkept 0 (Nat.zero_lt_succ _)
    have hlater : stripComment (kept ++ comment) = kept :=
      ih fun i hi => hkept (i + 1) (Nat.succ_lt_succ hi)
    rw [List.cons_append, stripComment_cons hhere, hlater]

/-- Every line has a place to cut, at its end if there is no comment. -/
theorem exists_comment (line : List Char) : ∃ comment, stripComment line ++ comment = line ∧
    (comment = [] ∨ StartsComment comment) ∧
    ∀ i < (stripComment line).length, ¬ StartsComment (line.drop i) := by
  induction line with
  | nil => exact ⟨[], rfl, .inl rfl, fun i hi => absurd hi (Nat.not_lt_zero i)⟩
  | cons c line ih =>
    by_cases hstarts : StartsComment (c :: line)
    · rw [stripComment_of_starts hstarts]
      exact ⟨c :: line, rfl, .inr hstarts, fun i hi => absurd hi (Nat.not_lt_zero i)⟩
    · obtain ⟨comment, hline, hcomment, hkept⟩ := ih
      rw [stripComment_cons hstarts]
      refine ⟨comment, by rw [List.cons_append, hline], hcomment, fun i hi => ?_⟩
      cases i with
      | zero => exact hstarts
      | succ i => exact hkept i (Nat.lt_of_succ_lt_succ hi)

theorem not_startsComment_drop {kept : List Char} (h : '#' ∉ kept ∧ '/' ∉ kept)
    (comment : List Char) : ∀ i < kept.length, ¬ StartsComment ((kept ++ comment).drop i) := by
  intro i hi hstarts
  rw [List.drop_append_of_le_length hi.le, List.drop_eq_getElem_cons hi, List.cons_append,
    startsComment_cons_iff] at hstarts
  have hmem : kept[i] ∈ kept := List.getElem_mem hi
  rcases hstarts with hc | ⟨hc, -⟩
  · exact h.1 (hc ▸ hmem)
  · exact h.2 (hc ▸ hmem)

/-! ## Blanks -/

section
variable {blanks : List Char} (hblanks : ∀ c ∈ blanks, isBlank c = true)
include hblanks

theorem not_mem_blanks {c : Char} (hc : isBlank c = false) : c ∉ blanks :=
  fun h => Bool.false_ne_true (hc ▸ hblanks c h)

theorem trim_blanks_append (cs : List Char) : trim (blanks ++ cs) = trim cs := by
  unfold trim
  rw [List.dropWhile_append_of_pos hblanks]

theorem trim_append_blanks (cs : List Char) : trim (cs ++ blanks) = trim cs := by
  unfold trim
  rw [List.dropWhile_append]
  cases hcs : cs.dropWhile isBlank with
  | nil => rw [List.isEmpty_nil, if_pos rfl, List.dropWhile_eq_nil_iff.2 hblanks]
  | cons c cs =>
    have hreverse : ∀ c ∈ blanks.reverse, isBlank c = true :=
      fun c hc => hblanks c (List.mem_reverse.1 hc)
    rw [List.isEmpty_cons, if_neg Bool.false_ne_true, List.reverse_append,
      List.dropWhile_append_of_pos hreverse]

/-- Blanks behind a line are blanks of its end, or they belong to its comment. -/
theorem stripComment_append_blanks (line : List Char) :
    stripComment (line ++ blanks) = stripComment line ∨
      stripComment (line ++ blanks) = stripComment line ++ blanks := by
  have hslash : '/' ∉ blanks := not_mem_blanks hblanks (by decide)
  induction line with
  | nil =>
    have hnumber : '#' ∉ blanks := not_mem_blanks hblanks (by decide)
    have hall := stripComment_append (.inl rfl) (not_startsComment_drop ⟨hnumber, hslash⟩ [])
    rw [List.append_nil] at hall
    exact .inr hall
  | cons c line ih =>
    by_cases hstarts : StartsComment (c :: line)
    · have hlonger : StartsComment (c :: line ++ blanks) :=
        hstarts.imp (·.trans (List.prefix_append _ _)) (·.trans (List.prefix_append _ _))
      rw [stripComment_of_starts hstarts, stripComment_of_starts hlonger]
      exact .inl rfl
    · have hlonger : ¬ StartsComment (c :: (line ++ blanks)) := by
        rw [startsComment_cons_iff] at hstarts ⊢
        cases line with
        | nil =>
          have hhead : blanks.head? ≠ some '/' := fun h => hslash (List.mem_of_mem_head? h)
          tauto
        | cons d line => exact hstarts
      rw [List.cons_append, stripComment_cons hlonger, stripComment_cons hstarts, List.cons_append]
      exact ih.imp (congrArg _) (congrArg _)

theorem body_append_blanks (line : List Char) : body (line ++ blanks) = body line := by
  unfold body
  rcases stripComment_append_blanks hblanks line with h | h
  · rw [h]
  · rw [h, trim_append_blanks hblanks]

end

/-- A character that is neither a blank nor in a sign of a comment. -/
def plain (c : Char) : Bool := !isBlank c && c != '#' && c != '/'

theorem plain_iff {c : Char} : plain c = true ↔ isBlank c = false ∧ c ≠ '#' ∧ c ≠ '/' := by
  simp [plain, and_assoc]

theorem dropWhile_eq_self {cs : List Char} (h : ∀ c ∈ cs.head?, isBlank c = false) :
    cs.dropWhile isBlank = cs := by
  cases cs with
  | nil => rfl
  | cons c cs => exact List.dropWhile_cons_of_neg (Bool.not_eq_true _ ▸ h c rfl)

theorem trim_eq_self {cs : List Char} (hfirst : ∀ c ∈ cs.head?, isBlank c = false)
    (hlast : ∀ c ∈ cs.getLast?, isBlank c = false) : trim cs = cs := by
  unfold trim
  rw [← List.head?_reverse] at hlast
  rw [dropWhile_eq_self hfirst, dropWhile_eq_self hlast, List.reverse_reverse]

theorem exists_blanks (cs : List Char) : ∃ lead trail, lead ++ trim cs ++ trail = cs ∧
    (∀ c ∈ lead, isBlank c = true) ∧ (∀ c ∈ trail, isBlank c = true) ∧
    (∀ c ∈ (trim cs).head?, isBlank c = false) ∧ (∀ c ∈ (trim cs).getLast?, isBlank c = false) := by
  have hfirst : ∀ ds : List Char, ∀ c ∈ (ds.dropWhile isBlank).head?, isBlank c = false := by
    intro ds c hc
    have h := List.head?_dropWhile_not isBlank ds
    rw [hc] at h
    exact h
  set rest := cs.dropWhile isBlank with hrest
  have hsplit : trim cs ++ (rest.reverse.takeWhile isBlank).reverse = rest := by
    unfold trim
    rw [← List.reverse_append, List.takeWhile_append_dropWhile, List.reverse_reverse]
  refine ⟨cs.takeWhile isBlank, (rest.reverse.takeWhile isBlank).reverse, ?_, ?_, ?_, ?_, ?_⟩
  · rw [List.append_assoc, hsplit, List.takeWhile_append_dropWhile]
  · exact fun c hc => List.mem_takeWhile_imp hc
  · exact fun c hc => List.mem_takeWhile_imp (List.mem_reverse.1 hc)
  · intro c hc
    refine hfirst cs c ?_
    rw [← hrest, ← hsplit, List.head?_append, hc]
    rfl
  · intro c hc
    unfold trim at hc
    rw [List.getLast?_reverse] at hc
    exact hfirst _ c hc

/-! ## Margins -/

/-- What a line has around what it holds: blanks, and a comment or none at the end. -/
structure Margins where
  lead : List Char
  trail : List Char
  comment : List Char
  blank_lead : ∀ c ∈ lead, isBlank c = true
  blank_trail : ∀ c ∈ trail, isBlank c = true
  starts_comment : comment = [] ∨ StartsComment comment
  feed_not_mem : '\n' ∉ lead ++ trail ++ comment

namespace Margins
variable (m : Margins)

def around (b : List Char) : List Char := m.lead ++ b ++ m.trail ++ m.comment

/-- `b` is all that stands between the margins: it has no blank at its ends, and no comment starts
before the one that the margins have. -/
structure Fits (b : List Char) : Prop where
  first : ∀ c ∈ b.head?, isBlank c = false
  last : ∀ c ∈ b.getLast?, isBlank c = false
  comment : ∀ i < (m.lead ++ b ++ m.trail).length, ¬ StartsComment ((m.around b).drop i)
  feed_not_mem : '\n' ∉ b

variable {m} {b : List Char}

/-- What is between the margins of a line is its body. -/
theorem Fits.body_around (h : m.Fits b) : body (m.around b) = b := by
  have hkept : stripComment (m.around b) = m.lead ++ b ++ m.trail :=
    stripComment_append m.starts_comment h.comment
  unfold body
  rw [hkept, trim_append_blanks m.blank_trail, trim_blanks_append m.blank_lead,
    trim_eq_self h.first h.last]

theorem Fits.feed_not_mem_around (h : m.Fits b) : '\n' ∉ m.around b := by
  have hb := h.feed_not_mem
  have hm := m.feed_not_mem
  unfold around
  simp only [List.mem_append] at hm ⊢
  tauto

/-- A text of plain characters fits between all margins. -/
theorem fits_of_plain (m : Margins) (h : ∀ c ∈ b, plain c = true) : m.Fits b where
  first c hc := (plain_iff.1 (h c (List.mem_of_mem_head? hc))).1
  last c hc := (plain_iff.1 (h c (List.mem_of_mem_getLast? hc))).1
  comment := by
    refine not_startsComment_drop ?_ m.comment
    have hlead := @not_mem_blanks _ m.blank_lead
    have htrail := @not_mem_blanks _ m.blank_trail
    have hnumber : '#' ∉ b := fun hmem => (plain_iff.1 (h _ hmem)).2.1 rfl
    have hslash : '/' ∉ b := fun hmem => (plain_iff.1 (h _ hmem)).2.2 rfl
    simp only [List.mem_append, not_or]
    exact ⟨⟨⟨hlead (by decide), hnumber⟩, htrail (by decide)⟩,
      ⟨⟨hlead (by decide), hslash⟩, htrail (by decide)⟩⟩
  feed_not_mem hmem := absurd (plain_iff.1 (h _ hmem)).1 (by decide)

end Margins

/-- Every line has margins, and its body is what is between them. -/
theorem body_eq_iff {line b : List Char} (hline : '\n' ∉ line) :
    body line = b ↔ ∃ m : Margins, m.Fits b ∧ m.around b = line := by
  constructor
  · rintro rfl
    obtain ⟨comment, hcomment, hstarts, hkept⟩ := exists_comment line
    obtain ⟨lead, trail, hblanks, hlead, htrail, hfirst, hlast⟩ := exists_blanks (stripComment line)
    have haround : lead ++ body line ++ trail ++ comment = line := by
      unfold body
      rw [hblanks, hcomment]
    rw [← haround] at hline
    simp only [List.mem_append, not_or] at hline
    obtain ⟨⟨⟨hinLead, hinBody⟩, hinTrail⟩, hinComment⟩ := hline
    have hmargins : '\n' ∉ lead ++ trail ++ comment := by
      simp only [List.mem_append, not_or]
      exact ⟨⟨hinLead, hinTrail⟩, hinComment⟩
    refine ⟨⟨lead, trail, comment, hlead, htrail, hstarts, hmargins⟩,
      ⟨hfirst, hlast, fun i hi => ?_, hinBody⟩, haround⟩
    unfold Margins.around
    rw [haround]
    exact hkept i (hblanks ▸ hi)
  · rintro ⟨m, hfits, rfl⟩
    exact hfits.body_around

end Multicycle.Image.Hex

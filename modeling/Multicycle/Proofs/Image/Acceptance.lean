/-
What a hex image may hold. A text is accepted exactly if each of its bodies, the empty ones apart,
spells a word, and it is then read as these words. Besides the spellings with a marker, digits and
separators there are those that have a plus sign in front of the first digit.
-/
import Multicycle.Proofs.Except
import Multicycle.Proofs.Image.Spelling

namespace Multicycle.Image.Hex

open Glyph

/-! ## Bodies -/

/-- How a word may stand in a body. A plus sign may have separators in front of it, but no digit. -/
inductive Spells : List Char → Word → Prop
  | plain (s : Spelling) : Spells s.chars s.word
  | signed (s : Spelling) (separators : Nat) :
    Spells (s.marker.chars ++ (List.replicate separators '_' ++ '+' :: s.glyphs.map char)) s.word

theorem unmarked_append {rest : List Char} (m : Marker) (hsmall : 'x' ∉ rest)
    (hcapital : 'X' ∉ rest) : Unmarked (m.chars ++ rest) rest := by
  cases m with
  | none => exact .none (fun h => hsmall (h.subset (by decide))) fun h => hcapital (h.subset (by decide))
  | small => exact .small _
  | capital => exact .capital _

theorem Unmarked.exists_marker {b rest : List Char} (h : Unmarked b rest) :
    ∃ m : Marker, b = m.chars ++ rest := by
  cases h with
  | small => exact ⟨.small, rfl⟩
  | capital => exact ⟨.capital, rfl⟩
  | none => exact ⟨.none, rfl⟩

/-- A plus sign goes with the separators. -/
theorem bare_signed (separators : Nat) (gs : List Glyph) :
    bare (List.replicate separators '_' ++ '+' :: gs.map char) = bare (gs.map char) := by
  have hlead : (List.replicate separators '_').filter (· ≠ '_') = [] :=
    List.filter_eq_nil_iff.2 fun c hc => by simp [List.eq_of_mem_replicate hc]
  rw [bare_chars, bare, List.filter_append, hlead, List.nil_append,
    List.filter_cons_of_pos (by decide), stripPlus]

theorem Spells.word?_eq {b : List Char} {w : Word} (h : Spells b w) : word? b = some w := by
  cases h with
  | plain s => exact s.word?_chars
  | signed s separators =>
    have hforeign : ∀ {c : Char}, c ∉ alphabet → c ≠ '+' →
        c ∉ List.replicate separators '_' ++ '+' :: s.glyphs.map char := by
      intro c hc hplus hmem
      rcases List.mem_append.1 hmem with hmem | hmem
      · rw [List.eq_of_mem_replicate hmem] at hc
        exact hc (by decide)
      · obtain ⟨g, -, hg⟩ := List.mem_map.1 ((List.mem_cons.1 hmem).resolve_left hplus)
        exact char_ne hc g hg
    have hunmarked := unmarked_append s.marker (hforeign (c := 'x') (by decide) (by decide))
      (hforeign (c := 'X') (by decide) (by decide))
    rw [word?_of_unmarked hunmarked, bare_signed, ← word?_of_unmarked s.unmarked_chars]
    exact s.word?_chars

theorem exists_digit_of_number? {cs : List Char} {n : Nat} (h : number? cs = some n) :
    ∀ c ∈ cs, ∃ d capital, (digit d capital).char = c := by
  intro c hc
  cases hdigit : Numeral.hexDigit? c with
  | none =>
    rw [number?_eq_none_of_mem hc hdigit] at h
    cases h
  | some m =>
    obtain ⟨d, capital, hchar, -⟩ := hexDigit?_eq_some_iff.1 hdigit
    exact ⟨d, capital, hchar⟩

/-- Characters that are digits but for separators are those of glyphs. -/
theorem exists_glyphs {cs : List Char}
    (h : ∀ c ∈ cs.filter (· ≠ '_'), ∃ d capital, (digit d capital).char = c) :
    ∃ gs : List Glyph, gs.map char = cs := by
  induction cs with
  | nil => exact ⟨[], rfl⟩
  | cons c cs ih =>
    by_cases hc : c = '_'
    · rw [List.filter_cons_of_neg (by simp [hc])] at h
      obtain ⟨gs, rfl⟩ := ih h
      exact ⟨.separator :: gs, by rw [hc]; rfl⟩
    · rw [List.filter_cons_of_pos (by simp [hc])] at h
      obtain ⟨d, capital, rfl⟩ := h c List.mem_cons_self
      obtain ⟨gs, rfl⟩ := ih fun c hc => h c (List.mem_cons_of_mem _ hc)
      exact ⟨.digit d capital :: gs, rfl⟩

/-- What is read as a number is glyphs, or separators and a plus sign with glyphs behind it. -/
theorem exists_glyphs_of_number?_bare {rest : List Char} {n : Nat} (h : number? (bare rest) = some n) :
    ∃ gs : List Glyph, number? (bare (gs.map char)) = some n ∧ (rest = gs.map char ∨
      ∃ separators, rest = List.replicate separators '_' ++ '+' :: gs.map char) := by
  have hdigits := exists_digit_of_number? h
  cases hfilter : rest.filter (· ≠ '_') with
  | nil =>
    obtain ⟨gs, rfl⟩ := @exists_glyphs rest fun c hc => by
      rw [hfilter] at hc
      cases hc
    exact ⟨gs, h, .inl rfl⟩
  | cons c cs =>
    by_cases hplus : c = '+'
    · subst hplus
      obtain ⟨lead, behind, rfl, hlead, -, hbehind⟩ := List.filter_eq_cons_iff.1 hfilter
      have hbare : bare (lead ++ '+' :: behind) = behind.filter (· ≠ '_') := by
        rw [bare, hfilter, hbehind, stripPlus]
      rw [hbare] at hdigits
      obtain ⟨gs, rfl⟩ := exists_glyphs hdigits
      have hseparators : lead = List.replicate lead.length '_' :=
        List.eq_replicate_iff.2 ⟨rfl, fun c hc => by simpa using hlead c hc⟩
      refine ⟨gs, ?_, .inr ⟨lead.length, by rw [← hseparators]⟩⟩
      rw [← bare_signed lead.length, ← hseparators]
      exact h
    · have hbare : bare rest = rest.filter (· ≠ '_') := by
        rw [bare, hfilter, stripPlus]
        exact fun cs h => hplus (List.cons.inj h).1
      rw [hbare] at hdigits
      obtain ⟨gs, rfl⟩ := exists_glyphs hdigits
      exact ⟨gs, h, .inl rfl⟩

/-- A body is read as a word just where it spells it. -/
theorem word?_eq_some_iff {b : List Char} {w : Word} : word? b = some w ↔ Spells b w := by
  constructor
  · intro h
    have hunmarked : Unmarked b (stripMarker b) := stripMarker_eq_iff.1 rfl
    obtain ⟨m, hb⟩ := hunmarked.exists_marker
    rw [word?_of_unmarked hunmarked, Option.bind_eq_some_iff] at h
    obtain ⟨n, hnumber, hword⟩ := h
    obtain ⟨hfits, ⟨⟩⟩ := Option.ite_none_right_eq_some.1 hword
    obtain ⟨gs, hgs, hrest⟩ := exists_glyphs_of_number?_bare hnumber
    rw [number?_bare_chars] at hgs
    obtain ⟨hne, ⟨⟩⟩ := Option.ite_none_left_eq_some.1 hgs
    let s : Spelling := ⟨BitVec.ofNat 32 (value gs), m, gs, hne, (Nat.mod_eq_of_lt hfits).symm⟩
    rcases hrest with hrest | ⟨separators, hrest⟩
    · rw [hb, hrest]
      exact .plain s
    · rw [hb, hrest]
      exact .signed s separators
  · exact Spells.word?_eq

/-! ## Texts -/

/-- The bodies of a text, without those that are empty. -/
def bodies (text : String) : List (List Char) :=
  ((lines text.toList).map body).filter fun b => !b.isEmpty

theorem readLines_eq_ok_iff {first : Nat} {ls : List (List Char)} {ws : List Word} :
    readLines first ls = .ok ws ↔
      List.Forall₂ Spells ((ls.map body).filter fun b => !b.isEmpty) ws := by
  induction ls generalizing first ws with
  | nil => simp [readLines, eq_comm]
  | cons line ls ih =>
    rw [readLines, List.map_cons]
    by_cases hempty : (body line).isEmpty
    · rw [if_pos hempty, List.filter_cons_of_neg (by simp [hempty]), ih]
    · rw [if_neg hempty, List.filter_cons_of_pos (by simp [hempty])]
      cases hword : word? (body line) with
      | none =>
        have hnone : ∀ w, ¬ Spells (body line) w := fun w hw => by
          rw [hw.word?_eq] at hword
          cases hword
        simp [List.forall₂_cons_left_iff, hnone]
      | some w =>
        have hspells : ∀ v, Spells (body line) v ↔ w = v := fun v => by
          rw [← word?_eq_some_iff, hword, Option.some.injEq]
        cases hrest : readLines (first + 1) ls with
        | error e =>
          have herror : ∀ vs, ¬ List.Forall₂ Spells ((ls.map body).filter fun b => !b.isEmpty) vs := by
            intro vs hvs
            rw [ih.2 hvs] at hrest
            cases hrest
          simp [List.forall₂_cons_left_iff, herror]
        | ok vs =>
          have hok : ∀ us,
              List.Forall₂ Spells ((ls.map body).filter fun b => !b.isEmpty) us ↔ vs = us := by
            intro us
            rw [← @ih (first + 1), hrest, Except.ok.injEq]
          simp [List.forall₂_cons_left_iff, hspells, hok, eq_comm]

/-- A text is accepted exactly if its bodies spell words, and then it is read as these words, one for
each body and in their order. -/
theorem read_eq_ok_iff_spells (text : String) (ws : List Word) :
    read text = .ok ws ↔ List.Forall₂ Spells (bodies text) ws :=
  readLines_eq_ok_iff

/-- A marker, digits and separators are not all that is accepted: there are texts with a plus sign. -/
theorem accepts_unspelled :
    ¬ ∀ text ws, read text = .ok ws →
      List.Forall₂ (fun b w => ∃ s : Spelling, s.chars = b ∧ s.word = w) (bodies text) ws := by
  intro h
  have hread : read "+1f" = .ok [0x1f#32] := rfl
  obtain ⟨s, hs, -⟩ := (List.forall₂_cons.1 (h _ _ hread)).1
  have hplus : '+' ∈ s.chars := by
    rw [hs]
    decide
  exact absurd (s.chars_subset hplus) (by decide)

end Multicycle.Image.Hex

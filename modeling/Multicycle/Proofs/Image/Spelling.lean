/-
How a word is spelled in a hex image: a marker or none, and then digits of either case with
separators anywhere among them. Every spelling of a word is read as that word, and a body that is
malformed, by a character that has no place in it, by having no digit or by its value, is read as
none.
-/
import Multicycle.Image.Hex
import Mathlib.Tactic

namespace Multicycle.Image.Hex

open Numeral (hexDigit?)

/-! ## Glyphs -/

/-- What a spelling has behind its marker. -/
inductive Glyph where
  | digit (d : Fin 16) (capital : Bool)
  | separator
  deriving DecidableEq

namespace Glyph

def char : Glyph → Char
  | digit d false => Nat.digitChar d
  | digit d true => (Nat.digitChar d).toUpper
  | separator => '_'

def digit? : Glyph → Option Nat
  | digit d _ => some d
  | separator => none

theorem hexDigit?_char_digit (d : Fin 16) (capital : Bool) :
    hexDigit? (digit d capital).char = some (d : Nat) := by
  revert d capital
  decide

theorem char_digit_ne_separator (d : Fin 16) (capital : Bool) :
    (digit d capital).char ≠ separator.char := by
  revert d capital
  decide

/-- All characters that glyphs have. -/
def alphabet : List Char := "0123456789abcdefABCDEF_".toList

theorem char_mem_alphabet (g : Glyph) : g.char ∈ alphabet := by
  cases g with
  | digit d capital => revert d capital; decide
  | separator => decide

theorem char_ne {c : Char} (h : c ∉ alphabet) (g : Glyph) : g.char ≠ c :=
  fun hg => h (hg ▸ g.char_mem_alphabet)

end Glyph

open Glyph

def digits (gs : List Glyph) : List Nat := gs.filterMap digit?

/-- The number whose digits are in `gs`, whatever separates them. -/
def value (gs : List Glyph) : Nat := Nat.ofDigits 16 (digits gs).reverse

theorem toNat_lt_of_hexDigit? {c : Char} {n : Nat} (h : hexDigit? c = some n) : c.toNat < 103 := by
  have hle : ∀ last : Char, c ≤ last → c.toNat ≤ last.toNat := fun _ h => h
  unfold hexDigit? at h
  split_ifs at h with hdecimal hsmall hcapital
  · exact (hle '9' hdecimal.2).trans_lt (by decide)
  · exact (hle 'f' hsmall.2).trans_lt (by decide)
  · exact (hle 'F' hcapital.2).trans_lt (by decide)

/-- Only the characters of digits are digits. -/
theorem hexDigit?_eq_some_iff {c : Char} {n : Nat} :
    hexDigit? c = some n ↔ ∃ d capital, (digit d capital).char = c ∧ (d : Nat) = n := by
  constructor
  · intro h
    have hall : ∀ k < 103, ∀ m ∈ hexDigit? (Char.ofNat k),
        ∃ d capital, (digit d capital).char = Char.ofNat k ∧ (d : Nat) = m := by
      decide
    have hc := hall c.toNat (toNat_lt_of_hexDigit? h) n
    rw [Char.ofNat_toNat] at hc
    exact hc h
  · rintro ⟨d, capital, rfl, rfl⟩
    exact hexDigit?_char_digit d capital

theorem hexDigit?_eq_none_of_ne {c : Char} (h : ∀ d capital, (digit d capital).char ≠ c) :
    hexDigit? c = none := by
  rw [Option.eq_none_iff_forall_ne_some]
  intro n hn
  obtain ⟨d, capital, hc, -⟩ := hexDigit?_eq_some_iff.1 hn
  exact h d capital hc

/-! ## Numbers -/

theorem ofDigits_eq_ofDigits_reverse (base : Nat) (ds : List Nat) :
    Numeral.ofDigits base ds = Nat.ofDigits base ds.reverse := by
  rw [Nat.ofDigits_eq_foldr, List.foldr_reverse]
  unfold Numeral.ofDigits
  congr 1
  funext n d
  simp [Nat.add_comm]

theorem mapM_eq_none_of_mem {α β : Type} {f : α → Option β} {x : α} {xs : List α} (hmem : x ∈ xs)
    (hx : f x = none) : xs.mapM f = none := by
  induction xs with
  | nil => cases hmem
  | cons y ys ih =>
    rw [List.mapM_cons]
    rcases List.mem_cons.1 hmem with rfl | hmem
    · rw [hx]
      rfl
    · rw [ih hmem]
      cases f y <;> rfl

theorem number?_eq_none_of_mem {c : Char} {cs : List Char} (hmem : c ∈ cs)
    (hc : hexDigit? c = none) : number? cs = none := by
  unfold number?
  rw [mapM_eq_none_of_mem hmem hc, Option.map_none, ite_self]

theorem number?_eq_some_of_mapM {cs : List Char} {ds : List Nat}
    (h : cs.mapM hexDigit? = some ds) :
    number? cs = if ds = [] then none else some (Nat.ofDigits 16 ds.reverse) := by
  unfold number?
  cases cs with
  | nil =>
    have hnil : ds = [] := (Option.some.inj h).symm
    rw [if_pos hnil, List.isEmpty_nil, if_pos rfl]
  | cons c cs =>
    have hne : ds ≠ [] := by
      rintro rfl
      rw [List.mapM_cons] at h
      obtain ⟨d, -, h⟩ := Option.bind_eq_some_iff.1 h
      obtain ⟨ds, -, h⟩ := Option.bind_eq_some_iff.1 h
      cases h
    rw [if_neg hne, List.isEmpty_cons, if_neg Bool.false_ne_true, h, Option.map_some,
      ofDigits_eq_ofDigits_reverse]

/-- What is left behind the marker of a body when separators and a plus sign are taken off. -/
def bare (rest : List Char) : List Char := stripPlus (rest.filter (· ≠ '_'))

theorem stripPlus_of_not_mem {cs : List Char} (h : '+' ∉ cs) : stripPlus cs = cs := by
  unfold stripPlus
  split
  · simp at h
  · rfl

theorem mem_stripPlus {c : Char} {cs : List Char} (h : c ∈ cs) (hplus : c ≠ '+') :
    c ∈ stripPlus cs := by
  unfold stripPlus
  split
  · exact (List.mem_cons.1 h).resolve_left hplus
  · exact h

theorem stripPlus_subset (cs : List Char) : stripPlus cs ⊆ cs := by
  unfold stripPlus
  split
  · exact List.subset_cons_self _ _
  · exact List.Subset.refl _

theorem mem_bare {c : Char} {rest : List Char} (h : c ∈ rest) (hseparator : c ≠ '_')
    (hplus : c ≠ '+') : c ∈ bare rest :=
  mem_stripPlus (List.mem_filter.2 ⟨h, decide_eq_true hseparator⟩) hplus

theorem bare_subset (rest : List Char) : bare rest ⊆ rest :=
  fun _ h => List.mem_of_mem_filter (stripPlus_subset _ h)

theorem bare_chars (gs : List Glyph) :
    bare (gs.map char) = (gs.map char).filter (· ≠ '_') := by
  refine stripPlus_of_not_mem fun h => ?_
  obtain ⟨g, -, hg⟩ := List.mem_map.1 (List.mem_of_mem_filter h)
  exact char_ne (by decide) g hg

/-- Of the glyphs only the digits are left, each with its value. -/
theorem mapM_bare_chars (gs : List Glyph) :
    (bare (gs.map char)).mapM hexDigit? = some (digits gs) := by
  rw [bare_chars]
  induction gs with
  | nil => rfl
  | cons g gs ih =>
    cases g with
    | digit d capital =>
      have hkept : decide ((digit d capital).char ≠ '_') = true :=
        decide_eq_true (char_digit_ne_separator d capital)
      rw [List.map_cons, List.filter_cons, if_pos hkept, List.mapM_cons, hexDigit?_char_digit, ih]
      rfl
    | separator =>
      rw [List.map_cons, List.filter_cons_of_neg (by decide), ih]
      rfl

theorem number?_bare_chars (gs : List Glyph) :
    number? (bare (gs.map char)) = if digits gs = [] then none else some (value gs) :=
  number?_eq_some_of_mapM (mapM_bare_chars gs)

/-! ## Markers -/

inductive Marker where
  | none
  | small
  | capital
  deriving DecidableEq

def Marker.chars : Marker → List Char
  | none => []
  | small => ['0', 'x']
  | capital => ['0', 'X']

/-- The second list is what the first has behind its marker, all of it where there is none. -/
inductive Unmarked : List Char → List Char → Prop
  | small (cs : List Char) : Unmarked (Marker.small.chars ++ cs) cs
  | capital (cs : List Char) : Unmarked (Marker.capital.chars ++ cs) cs
  | none {cs : List Char} (hsmall : ¬ Marker.small.chars <+: cs)
      (hcapital : ¬ Marker.capital.chars <+: cs) : Unmarked cs cs

theorem stripMarker_eq_iff {b rest : List Char} : stripMarker b = rest ↔ Unmarked b rest := by
  constructor
  · rintro rfl
    unfold stripMarker
    split
    · exact .small _
    · exact .capital _
    · rename_i hsmall hcapital
      refine .none ?_ ?_
      · rintro ⟨cs, rfl⟩
        exact hsmall cs rfl
      · rintro ⟨cs, rfl⟩
        exact hcapital cs rfl
  · intro h
    cases h with
    | small => rfl
    | capital => rfl
    | none hsmall hcapital =>
      unfold stripMarker
      split
      · exact absurd (List.prefix_append _ _) hsmall
      · exact absurd (List.prefix_append _ _) hcapital
      · rfl

theorem word?_of_unmarked {b rest : List Char} (h : Unmarked b rest) :
    word? b = (number? (bare rest)).bind fun n =>
      if n < UInt32.size then some (BitVec.ofNat 32 n) else none := by
  unfold word? bare
  rw [stripMarker_eq_iff.2 h]
  rfl

theorem not_prefix_chars {c : Char} {cs : List Char} (hmem : c ∈ cs) (hc : ∀ g : Glyph, g.char ≠ c)
    (gs : List Glyph) : ¬ cs <+: gs.map char := by
  intro hstart
  obtain ⟨g, -, hg⟩ := List.mem_map.1 (hstart.subset hmem)
  exact hc g hg

/-! ## Spellings -/

structure Spelling where
  word : Word
  marker : Marker
  glyphs : List Glyph
  digits_ne_nil : digits glyphs ≠ []
  value_eq : value glyphs = word.toNat

namespace Spelling

def chars (s : Spelling) : List Char := s.marker.chars ++ s.glyphs.map char

theorem chars_subset (s : Spelling) : s.chars ⊆ 'x' :: 'X' :: alphabet := by
  have hmarker : ∀ m : Marker, m.chars ⊆ 'x' :: 'X' :: alphabet := fun m => by cases m <;> decide
  refine List.append_subset.2 ⟨hmarker s.marker, ?_⟩
  intro c hc
  obtain ⟨g, -, rfl⟩ := List.mem_map.1 hc
  exact List.mem_cons_of_mem _ (List.mem_cons_of_mem _ g.char_mem_alphabet)

theorem chars_ne_nil (s : Spelling) : s.chars ≠ [] := by
  intro h
  have hglyphs : s.glyphs = [] := List.map_eq_nil_iff.1 (List.append_eq_nil_iff.1 h).2
  exact s.digits_ne_nil (by rw [hglyphs]; rfl)

theorem unmarked_chars (s : Spelling) : Unmarked s.chars (s.glyphs.map char) := by
  unfold chars
  cases s.marker with
  | small => exact .small _
  | capital => exact .capital _
  | none =>
    have hx : ∀ g : Glyph, g.char ≠ 'x' := char_ne (by decide)
    have hX : ∀ g : Glyph, g.char ≠ 'X' := char_ne (by decide)
    exact .none (not_prefix_chars (by decide) hx _) (not_prefix_chars (by decide) hX _)

/-- Every spelling of a word is read as that word. -/
theorem word?_chars (s : Spelling) : word? s.chars = some s.word := by
  have hfits : s.word.toNat < UInt32.size := s.word.isLt
  rw [word?_of_unmarked s.unmarked_chars, number?_bare_chars, if_neg s.digits_ne_nil, s.value_eq,
    Option.bind_some, if_pos hfits, BitVec.ofNat_toNat, BitVec.setWidth_eq]

end Spelling

/-- What is behind the marker spells nothing: there is a character that no spelling has, a plus
sign apart, or no digit, or the number has more than 32 bits. -/
inductive Malformed (rest : List Char) : Prop
  | foreign (c : Char) (hmem : c ∈ rest) (hplus : c ≠ '+') (hforeign : ∀ g : Glyph, g.char ≠ c)
  | empty (hempty : ∀ d capital, (digit d capital).char ∉ rest)
  | large (gs : List Glyph) (hchars : gs.map char = rest) (hlarge : 2 ^ 32 ≤ value gs)

theorem Malformed.word?_eq_none {b rest : List Char} (h : Malformed rest) (hb : Unmarked b rest) :
    word? b = none := by
  rw [word?_of_unmarked hb]
  cases h with
  | foreign c hmem hplus hforeign =>
    have hseparator : c ≠ '_' := fun hc => hforeign .separator hc.symm
    have hnone : hexDigit? c = none := hexDigit?_eq_none_of_ne fun d capital => hforeign _
    rw [number?_eq_none_of_mem (mem_bare hmem hseparator hplus) hnone]
    rfl
  | empty hempty =>
    have hnone : number? (bare rest) = none := by
      cases hbare : bare rest with
      | nil => rfl
      | cons c cs =>
        have hmem : c ∈ rest := bare_subset rest (hbare ▸ List.mem_cons_self)
        refine number?_eq_none_of_mem List.mem_cons_self (hexDigit?_eq_none_of_ne ?_)
        exact fun d capital hc => hempty d capital (hc ▸ hmem)
    rw [hnone]
    rfl
  | large gs hchars hlarge =>
    rw [← hchars, number?_bare_chars]
    split
    · rfl
    · exact if_neg (Nat.not_lt.2 hlarge)

end Multicycle.Image.Hex

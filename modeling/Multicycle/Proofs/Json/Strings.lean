/-
How JSON text stands between its quotes. A string is written piece by piece: a character as itself, one
of the eight short escapes, or a code unit by its four hexadecimal digits. Pieces that spell a text are
read as that text, with surrogates only in pairs; a string that is only skipped may have any pieces.
Blanks, which may stand between all lexemes, come first.
-/
import Multicycle.Json.Record
import Multicycle.Proofs.Except
import Multicycle.Proofs.Image.Spelling
import Mathlib.Tactic

namespace Multicycle.Json

/-! ## Blanks -/

inductive Blank where
  | space
  | lineFeed
  | tab
  | carriageReturn
  deriving DecidableEq

def Blank.char : Blank → Char
  | space => ' '
  | lineFeed => '\n'
  | tab => '\t'
  | carriageReturn => '\r'

/-- What may stand between two lexemes. -/
abbrev Gap := List Blank

def Gap.chars (gap : Gap) : List Char := gap.map Blank.char

theorem isBlank_iff {c : Char} : isBlank c = true ↔ ∃ b : Blank, b.char = c := by
  unfold isBlank
  simp only [Bool.or_eq_true, beq_iff_eq]
  constructor
  · rintro (((rfl | rfl) | rfl) | rfl)
    · exact ⟨.space, rfl⟩
    · exact ⟨.lineFeed, rfl⟩
    · exact ⟨.tab, rfl⟩
    · exact ⟨.carriageReturn, rfl⟩
  · rintro ⟨b, rfl⟩
    cases b <;> simp [Blank.char]

theorem skipBlanks_gap (gap : Gap) (cs : List Char) : skipBlanks (gap.chars ++ cs) = skipBlanks cs := by
  refine List.dropWhile_append_of_pos fun c hc => ?_
  obtain ⟨b, -, hb⟩ := List.mem_map.1 hc
  exact isBlank_iff.2 ⟨b, hb⟩

theorem skipBlanks_cons {c : Char} (h : isBlank c = false) (cs : List Char) :
    skipBlanks (c :: cs) = c :: cs := List.dropWhile_cons_of_neg (by simp [h])

/-! ## Pieces -/

/-- The escapes of a single letter or sign. -/
inductive ShortEscape where
  | quote
  | backslash
  | slash
  | backspace
  | formFeed
  | lineFeed
  | carriageReturn
  | tab
  deriving DecidableEq

namespace ShortEscape

/-- What is written behind the backslash. -/
def mark : ShortEscape → Char
  | quote => '"'
  | backslash => '\\'
  | slash => '/'
  | backspace => 'b'
  | formFeed => 'f'
  | lineFeed => 'n'
  | carriageReturn => 'r'
  | tab => 't'

def char : ShortEscape → Char
  | quote => '"'
  | backslash => '\\'
  | slash => '/'
  | backspace => '\x08'
  | formFeed => '\x0c'
  | lineFeed => '\n'
  | carriageReturn => '\r'
  | tab => '\t'

theorem shortEscape?_mark (e : ShortEscape) : shortEscape? e.mark = some e.char := by
  cases e <;> rfl

end ShortEscape

/-- A hexadecimal digit, the letters in either case. -/
structure HexDigit where
  value : Fin 16
  capital : Bool
  deriving DecidableEq

def HexDigit.char (d : HexDigit) : Char := (Image.Hex.Glyph.digit d.value d.capital).char

theorem HexDigit.hexDigit?_char (d : HexDigit) : Numeral.hexDigit? d.char = some (d.value : Nat) :=
  Image.Hex.Glyph.hexDigit?_char_digit d.value d.capital

/-- A code unit of sixteen bits by its digits, the highest first. -/
structure CodeUnit where
  d₃ : HexDigit
  d₂ : HexDigit
  d₁ : HexDigit
  d₀ : HexDigit
  deriving DecidableEq

namespace CodeUnit

def chars (u : CodeUnit) : List Char := [u.d₃.char, u.d₂.char, u.d₁.char, u.d₀.char]

def value (u : CodeUnit) : Nat :=
  16 * (16 * (16 * u.d₃.value + u.d₂.value) + u.d₁.value) + u.d₀.value

/-- The first half of a surrogate pair. -/
def IsHigh (u : CodeUnit) : Prop := 0xd800 ≤ u.value ∧ u.value ≤ 0xdbff

/-- The second half of a surrogate pair. -/
def IsLow (u : CodeUnit) : Prop := 0xdc00 ≤ u.value ∧ u.value ≤ 0xdfff

instance : DecidablePred IsHigh := fun u =>
  inferInstanceAs (Decidable (0xd800 ≤ u.value ∧ u.value ≤ 0xdbff))

instance : DecidablePred IsLow := fun u =>
  inferInstanceAs (Decidable (0xdc00 ≤ u.value ∧ u.value ≤ 0xdfff))

/-- The character that a surrogate pair stands for. -/
def paired (high low : CodeUnit) : Char :=
  Char.ofNat (0x10000 + 0x400 * (high.value - 0xd800) + (low.value - 0xdc00))

end CodeUnit

theorem length_le_utf8ByteSize (cs : List Char) : cs.length ≤ (String.ofList cs).utf8ByteSize := by
  induction cs with
  | nil => exact Nat.zero_le _
  | cons c cs ih =>
    have hpos := c.utf8Size_pos
    rw [← String.size_toByteArray, String.toByteArray_ofList] at ih ⊢
    rw [List.utf8Encode_cons, ByteArray.size_append, List.utf8Encode_singleton, List.length_cons]
    simp only [List.size_toByteArray, String.length_utf8EncodeChar]
    omega

theorem codeUnit_chars (u : CodeUnit) (rest : List Char) :
    codeUnit (u.chars ++ rest) = .ok (u.value, rest) := by
  have hsize : ¬ (String.ofList ((u.chars ++ rest).take 4)).utf8ByteSize < 4 :=
    Nat.not_lt.2 (length_le_utf8ByteSize [_, _, _, _])
  unfold codeUnit
  rw [if_neg hsize]
  simp [CodeUnit.chars, HexDigit.hexDigit?_char, Numeral.ofDigits, CodeUnit.value]

/-- What a string is written in. A character may stand for itself unless it is a quote, a backslash or
a control character. -/
inductive Piece where
  | plain (c : Char) (printable : 0x20 ≤ c.toNat ∧ c ≠ '"' ∧ c ≠ '\\')
  | short (e : ShortEscape)
  | unit (u : CodeUnit)

def Piece.chars : Piece → List Char
  | plain c _ => [c]
  | short e => ['\\', e.mark]
  | unit u => '\\' :: 'u' :: u.chars

/-- A string as it is written, without its quotes. -/
abbrev Pieces := List Piece

def Pieces.chars (ps : Pieces) : List Char := ps.flatMap Piece.chars

theorem Pieces.length_le_length_chars (ps : Pieces) : ps.length ≤ ps.chars.length := by
  have hpos : ∀ p : Piece, 1 ≤ p.chars.length := fun p => by cases p <;> simp [Piece.chars]
  induction ps with
  | nil => exact Nat.le_refl 0
  | cons p ps ih =>
    have hcons : chars (p :: ps) = p.chars ++ chars ps := rfl
    rw [hcons, List.length_append, List.length_cons, Nat.add_comm]
    exact Nat.add_le_add (hpos p) ih

/-- The pieces spell a text. A code unit spells a character unless it is half of a surrogate pair, and
then the other half has to follow. -/
inductive Pieces.Spells : Pieces → List Char → Prop
  | nil : Spells [] []
  | plain (c : Char) (printable : 0x20 ≤ c.toNat ∧ c ≠ '"' ∧ c ≠ '\\') {ps : Pieces}
    {text : List Char} (h : Spells ps text) : Spells (.plain c printable :: ps) (c :: text)
  | short (e : ShortEscape) {ps : Pieces} {text : List Char} (h : Spells ps text) :
    Spells (.short e :: ps) (e.char :: text)
  | unit (u : CodeUnit) (hhigh : ¬ u.IsHigh) (hlow : ¬ u.IsLow) {ps : Pieces} {text : List Char}
    (h : Spells ps text) : Spells (.unit u :: ps) (Char.ofNat u.value :: text)
  | pair (high low : CodeUnit) (hhigh : high.IsHigh) (hlow : low.IsLow) {ps : Pieces}
    {text : List Char} (h : Spells ps text) :
    Spells (.unit high :: .unit low :: ps) (high.paired low :: text)

/-- A character as itself where it may be, else by its code unit. -/
def Piece.ofChar (c : Char) : Piece :=
  if printable : 0x20 ≤ c.toNat ∧ c ≠ '"' ∧ c ≠ '\\' then .plain c printable
  else .unit ⟨⟨0, false⟩, ⟨0, false⟩, ⟨Fin.ofNat 16 (c.toNat / 16), false⟩,
    ⟨Fin.ofNat 16 c.toNat, false⟩⟩

/-- Every text can be spelled. -/
theorem Pieces.spells_ofChar (text : List Char) : Spells (text.map Piece.ofChar) text := by
  induction text with
  | nil => exact .nil
  | cons c text ih =>
    rw [List.map_cons, Piece.ofChar]
    split
    · rename_i printable
      exact .plain c printable ih
    · rename_i hc
      have hsmall : c.toNat < 0x80 := by
        simp only [not_and_or, not_le, not_not] at hc
        rcases hc with hc | rfl | rfl
        · omega
        · decide
        · decide
      generalize hu : CodeUnit.mk ⟨0, false⟩ ⟨0, false⟩ ⟨Fin.ofNat 16 (c.toNat / 16), false⟩
        ⟨Fin.ofNat 16 c.toNat, false⟩ = u
      have hvalue : u.value = c.toNat := by
        rw [← hu]
        show 16 * (16 * (16 * 0 + 0) + c.toNat / 16 % 16) + c.toNat % 16 = c.toNat
        omega
      have hunit := Spells.unit u (by unfold CodeUnit.IsHigh; omega) (by unfold CodeUnit.IsLow; omega) ih
      rwa [hvalue, Char.ofNat_toNat] at hunit

/-! ## Reading -/

theorem stringBody_quote (skipping : Bool) {bound : Nat} (hbound : 0 < bound) (rest : List Char) :
    stringBody skipping bound ('"' :: rest) = .ok ([], rest) := by
  rw [stringBody]
  exact hbound.ne'

theorem stringBody_plain (skipping : Bool) (bound : Nat) {c : Char}
    (printable : 0x20 ≤ c.toNat ∧ c ≠ '"' ∧ c ≠ '\\') (cs : List Char) :
    stringBody skipping (bound + 1) (c :: cs) =
      (fun r => (c :: r.1, r.2)) <$> stringBody skipping bound cs := by
  obtain ⟨hcontrol, hquote, hbackslash⟩ := printable
  rw [stringBody, if_neg (Nat.not_lt.2 hcontrol)]
  · cases stringBody skipping bound cs <;> rfl
  · exact hquote
  · exact hbackslash

theorem stringBody_escape {skipping : Bool} {cs cs' : List Char} {c : Char}
    (h : escape skipping cs = .ok (c, cs')) (bound : Nat) :
    stringBody skipping (bound + 1) ('\\' :: cs) =
      (fun r => (c :: r.1, r.2)) <$> stringBody skipping bound cs' := by
  rw [stringBody, h, ok_bind]
  dsimp only
  cases stringBody skipping bound cs' <;> rfl

theorem escape_short (skipping : Bool) (e : ShortEscape) (cs : List Char) :
    escape skipping (e.mark :: cs) = .ok (e.char, cs) := by
  have hu : e.mark ≠ 'u' := by cases e <;> decide
  rw [escape, e.shortEscape?_mark]
  exact hu

theorem escape_unit {u : CodeUnit} (hhigh : ¬ u.IsHigh) (hlow : ¬ u.IsLow) (cs : List Char) :
    escape false ('u' :: (u.chars ++ cs)) = .ok (Char.ofNat u.value, cs) := by
  unfold CodeUnit.IsHigh at hhigh
  unfold CodeUnit.IsLow at hlow
  rw [escape, if_neg Bool.false_ne_true, codePoint, codeUnit_chars, ok_bind]
  dsimp only
  rw [if_neg hlow, if_neg hhigh]

theorem escape_pair {high low : CodeUnit} (hhigh : high.IsHigh) (hlow : low.IsLow) (cs : List Char) :
    escape false ('u' :: (high.chars ++ '\\' :: 'u' :: (low.chars ++ cs))) =
      .ok (high.paired low, cs) := by
  unfold CodeUnit.IsHigh at hhigh
  unfold CodeUnit.IsLow at hlow
  have hsecond : lowSurrogate ('\\' :: 'u' :: (low.chars ++ cs)) = .ok (low.value, cs) := by
    rw [lowSurrogate, codeUnit_chars, ok_bind]
    exact if_pos hlow
  rw [escape, if_neg Bool.false_ne_true, codePoint, codeUnit_chars, ok_bind]
  dsimp only
  rw [if_neg (by omega), if_pos hhigh, hsecond, ok_bind]
  rfl

theorem escape_skipped (u : CodeUnit) (cs : List Char) :
    escape true ('u' :: (u.chars ++ cs)) = .ok ('\ufffd', cs) := by
  rw [escape, if_pos rfl, codeUnit_chars, ok_bind]

/-- One character more is read where the rest of the string is. -/
theorem stringBody_of_step {skipping : Bool} {cs cs' text rest : List Char} {c : Char} {bound : Nat}
    (hstep : ∀ bound, stringBody skipping (bound + 1) cs =
      (fun r => (c :: r.1, r.2)) <$> stringBody skipping bound cs')
    (hbound : 0 < bound) (h : stringBody skipping (bound - 1) cs' = .ok (text, rest)) :
    stringBody skipping bound cs = .ok (c :: text, rest) := by
  have hsucc := hstep (bound - 1)
  rw [Nat.sub_add_cancel hbound, h] at hsucc
  exact hsucc

/-- Pieces that spell a text are read as that text. -/
theorem string_chars {ps : Pieces} {text : List Char} (h : ps.Spells text) {bound : Nat}
    (hbound : ps.length < bound) (rest : List Char) :
    string bound (ps.chars ++ '"' :: rest) = .ok (text, rest) := by
  unfold string
  induction h generalizing bound with
  | nil => exact stringBody_quote false hbound rest
  | @plain c printable ps text h ih =>
    rw [List.length_cons] at hbound
    have hread : stringBody false (bound - 1) _ = _ := ih (by omega)
    exact stringBody_of_step (fun bound => stringBody_plain false bound printable _) (by omega) hread
  | @short e ps text h ih =>
    rw [List.length_cons] at hbound
    have hread : stringBody false (bound - 1) _ = _ := ih (by omega)
    exact stringBody_of_step (stringBody_escape (escape_short false e _)) (by omega) hread
  | @unit u hhigh hlow ps text h ih =>
    rw [List.length_cons] at hbound
    have hread : stringBody false (bound - 1) _ = _ := ih (by omega)
    exact stringBody_of_step (stringBody_escape (escape_unit hhigh hlow _)) (by omega) hread
  | @pair high low hhigh hlow ps text h ih =>
    rw [List.length_cons, List.length_cons] at hbound
    have hread : stringBody false (bound - 1) _ = _ := ih (by omega)
    exact stringBody_of_step (stringBody_escape (escape_pair hhigh hlow _)) (by omega) hread

theorem skipString_chars (ps : Pieces) {bound : Nat} (hbound : ps.length < bound)
    (rest : List Char) : skipString bound (ps.chars ++ '"' :: rest) = .ok rest := by
  have hbody : ∃ text, stringBody true bound (ps.chars ++ '"' :: rest) = .ok (text, rest) := by
    induction ps generalizing bound with
    | nil => exact ⟨[], stringBody_quote true hbound rest⟩
    | cons p ps ih =>
      rw [List.length_cons] at hbound
      obtain ⟨text, hread⟩ := @ih (bound - 1) (by omega)
      cases p with
      | plain c printable =>
        exact ⟨_, stringBody_of_step (fun bound => stringBody_plain true bound printable _) (by omega)
          hread⟩
      | short e =>
        exact ⟨_, stringBody_of_step (stringBody_escape (escape_short true e _)) (by omega) hread⟩
      | unit u => exact ⟨_, stringBody_of_step (stringBody_escape (escape_skipped u _)) (by omega) hread⟩
  obtain ⟨text, hread⟩ := hbody
  rw [skipString, hread]
  rfl

end Multicycle.Json

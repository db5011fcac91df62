/-
How JSON numbers are written, and that each is read as it is written where nothing follows that could go
on with it. Plain decimals are the numbers that a field may hold.
-/
import Multicycle.Proofs.Json.Strings

namespace Multicycle.Json

/-! ## Ends -/

/-- A number is over here, whatever its last part is. -/
def Ends (rest : List Char) : Prop :=
  ∀ c ∈ rest.head?, c.isDigit = false ∧ c ≠ '.' ∧ c ≠ 'e' ∧ c ≠ 'E'

/-- What closes a value or parts it from the next one ends a number. -/
theorem ends_cons {c : Char} (h : isBlank c = true ∨ c = ',' ∨ c = ']' ∨ c = '}') (cs : List Char) :
    Ends (c :: cs) := by
  intro d hd
  cases hd
  rcases h with h | rfl | rfl | rfl
  · obtain ⟨b, rfl⟩ := isBlank_iff.1 h
    cases b <;> decide
  · decide
  · decide
  · decide

theorem Ends.gap_append {rest : List Char} (h : Ends rest) (gap : Gap) : Ends (gap.chars ++ rest) := by
  cases gap with
  | nil => exact h
  | cons b gap => exact ends_cons (.inl (isBlank_iff.2 ⟨b, rfl⟩)) _

/-! ## Digits -/

/-- One or more decimal digits. -/
structure IsDigits (ds : List Char) : Prop where
  ne_nil : ds ≠ []
  isDigit : ∀ c ∈ ds, c.isDigit = true

theorem isDigits_toDigits (n : Nat) : IsDigits (Nat.toDigits 10 n) :=
  ⟨Nat.toDigits_ne_nil, fun _ hc => Nat.isDigit_of_mem_toDigits (by decide) (by decide) hc⟩

/-- Only zero starts with a zero. -/
theorem eq_zero_of_head?_toDigits {n : Nat} (h : (Nat.toDigits 10 n).head? = some '0') : n = 0 := by
  induction n using Nat.strong_induction_on with
  | _ n ih =>
    by_cases hn : n < 10
    · rw [Nat.toDigits_of_lt_base hn] at h
      interval_cases n <;> first | rfl | cases h
    · rw [Nat.toDigits_of_base_le (by decide) (Nat.le_of_not_lt hn),
        List.head?_append_of_ne_nil _ Nat.toDigits_ne_nil] at h
      have hzero := ih (n / 10) (by omega) h
      omega

namespace Number

theorem value_eq_ofDigitChars (ds : List Char) : value ds = Nat.ofDigitChars 10 ds 0 := by
  rw [value, Numeral.ofDigits, List.foldl_map]
  rfl

theorem value_toDigits (n : Nat) : value (Nat.toDigits 10 n) = n := by
  rw [value_eq_ofDigitChars, Nat.ofDigitChars_ten_toDigits]

theorem digits_append {ds rest : List Char} (h : IsDigits ds)
    (hrest : ∀ c ∈ rest.head?, c.isDigit = false) : digits (ds ++ rest) = .ok (ds, rest) := by
  obtain ⟨hne, hdigits⟩ := h
  cases ds with
  | nil => exact absurd rfl hne
  | cons d ds =>
    have htail : ∀ c ∈ ds, c.isDigit = true := fun c hc => hdigits c (List.mem_cons_of_mem _ hc)
    have hstop : rest.takeWhile Char.isDigit = [] ∧ rest.dropWhile Char.isDigit = rest := by
      cases rest with
      | nil => exact ⟨rfl, rfl⟩
      | cons c rest =>
        have hc : ¬ c.isDigit = true := by simp [hrest c rfl]
        exact ⟨List.takeWhile_cons_of_neg hc, List.dropWhile_cons_of_neg hc⟩
    rw [List.cons_append, digits, if_pos (hdigits d List.mem_cons_self),
      List.takeWhile_append_of_pos htail, List.dropWhile_append_of_pos htail, hstop.1, hstop.2,
      List.append_nil]

end Number

/-! ## Numbers -/

/-- A number as it is written: an exponent has a mark in one of two cases, and a plus sign or none
where it is not negative. -/
structure Numeric where
  number : Number
  capital : Bool
  plus : Bool
  whole : IsDigits number.whole
  unpadded : number.whole.head? = some '0' → number.whole.length = 1
  fraction : ∀ ds ∈ number.fraction, IsDigits ds
  exponent : ∀ e ∈ number.exponent, IsDigits e.2

namespace Numeric

def signChars (w : Numeric) : List Char := if w.number.negative then ['-'] else []

def fractionChars (w : Numeric) : List Char :=
  match w.number.fraction with
  | none => []
  | some ds => '.' :: ds

def exponentChars (w : Numeric) : List Char :=
  match w.number.exponent with
  | none => []
  | some (negative, ds) =>
    (if w.capital then 'E' else 'e') ::
      ((if negative then ['-'] else if w.plus then ['+'] else []) ++ ds)

def chars (w : Numeric) : List Char :=
  w.signChars ++ (w.number.whole ++ (w.fractionChars ++ w.exponentChars))

/-- The plain decimal of a number. -/
def decimal (n : Nat) : Numeric where
  number := ⟨false, Nat.toDigits 10 n, none, none⟩
  capital := false
  plus := false
  whole := isDigits_toDigits n
  unpadded h := by
    dsimp only at h ⊢
    rw [eq_zero_of_head?_toDigits h]
    rfl
  fraction := by simp
  exponent := by simp

@[simp] theorem chars_decimal (n : Nat) : (decimal n).chars = Nat.toDigits 10 n := by
  simp [chars, signChars, fractionChars, exponentChars, decimal]

variable (w : Numeric) {rest : List Char}

/-! ### Reading -/

theorem ne_of_isDigit {c d : Char} (hc : c.isDigit = true) (hd : d.isDigit = false) : c ≠ d :=
  fun h => Bool.false_ne_true (hd.symm.trans (h ▸ hc))

theorem head_whole : ∃ d ds, w.number.whole = d :: ds ∧ d.isDigit = true := by
  obtain ⟨d, ds, hds⟩ := List.exists_cons_of_ne_nil w.whole.ne_nil
  exact ⟨d, ds, hds, w.whole.isDigit d (hds ▸ List.mem_cons_self)⟩

/-- A number starts with a minus sign or a digit. -/
theorem head_chars : ∃ c cs, w.chars = c :: cs ∧ (c = '-' ∨ c.isDigit = true) := by
  obtain ⟨d, ds, hds, hd⟩ := w.head_whole
  unfold chars signChars
  rw [hds]
  cases w.number.negative with
  | false => exact ⟨d, _, rfl, .inr hd⟩
  | true => exact ⟨'-', _, rfl, .inl rfl⟩

theorem head?_exponentChars (hrest : Ends rest) :
    ∀ c ∈ (w.exponentChars ++ rest).head?, c.isDigit = false ∧ c ≠ '.' := by
  intro c hc
  unfold exponentChars at hc
  cases h : w.number.exponent with
  | none =>
    rw [h] at hc
    exact ⟨(hrest c hc).1, (hrest c hc).2.1⟩
  | some e =>
    rw [h] at hc
    cases hc
    cases w.capital <;> decide

theorem head?_fractionChars (hrest : Ends rest) :
    ∀ c ∈ (w.fractionChars ++ (w.exponentChars ++ rest)).head?, c.isDigit = false := by
  intro c hc
  unfold fractionChars at hc
  cases h : w.number.fraction with
  | none =>
    rw [h] at hc
    exact (w.head?_exponentChars hrest c hc).1
  | some ds =>
    rw [h] at hc
    cases hc
    rfl

theorem readSign_chars {ds : List Char} (hds : IsDigits ds) (negative plus : Bool) (rest : List Char) :
    Number.readSign ((if negative then ['-'] else if plus then ['+'] else []) ++ ds ++ rest) =
      (negative, ds ++ rest) := by
  cases negative with
  | true => rfl
  | false =>
    cases plus with
    | true => rfl
    | false =>
      obtain ⟨d, ds, rfl⟩ := List.exists_cons_of_ne_nil hds.ne_nil
      have hd := hds.isDigit d List.mem_cons_self
      show Number.readSign (d :: (ds ++ rest)) = _
      rw [Number.readSign]
      · rfl
      · exact fun cs h => ne_of_isDigit hd (by decide) (List.cons.inj h).1
      · exact fun cs h => ne_of_isDigit hd (by decide) (List.cons.inj h).1

theorem readExponent_chars (hrest : Ends rest) :
    Number.readExponent (w.exponentChars ++ rest) = .ok (w.number.exponent, rest) := by
  unfold exponentChars
  cases h : w.number.exponent with
  | none =>
    rw [List.nil_append, Number.readExponent]
    · rintro cs rfl
      exact (hrest 'e' rfl).2.2.1 rfl
    · rintro cs rfl
      exact (hrest 'E' rfl).2.2.2 rfl
  | some e =>
    obtain ⟨negative, ds⟩ := e
    have hds : IsDigits ds := w.exponent _ h
    have hsign := readSign_chars hds negative w.plus rest
    have hdigits := Number.digits_append hds fun c hc => (hrest c hc).1
    -- Behind either mark the same is read.
    have hmark : ∀ c cs, (c = 'e' ∨ c = 'E') → Number.readSign cs = (negative, ds ++ rest) →
        Number.readExponent (c :: cs) = .ok (some (negative, ds), rest) := by
      rintro c cs (rfl | rfl) hcs <;>
      · rw [Number.readExponent, hcs]
        dsimp only
        rw [hdigits, ok_bind]
    refine hmark _ _ ?_ hsign
    cases w.capital <;> simp

theorem readFraction_chars (hrest : Ends rest) :
    Number.readFraction (w.fractionChars ++ (w.exponentChars ++ rest)) =
      .ok (w.number.fraction, w.exponentChars ++ rest) := by
  have hhead := w.head?_exponentChars hrest
  unfold fractionChars
  cases h : w.number.fraction with
  | none =>
    rw [List.nil_append, Number.readFraction]
    intro cs hcs
    rw [hcs] at hhead
    exact (hhead '.' rfl).2 rfl
  | some ds =>
    show Number.readFraction ('.' :: (ds ++ (w.exponentChars ++ rest))) = _
    rw [Number.readFraction, Number.digits_append (w.fraction ds h) fun c hc => (hhead c hc).1,
      ok_bind]

theorem readWhole_chars (hrest : Ends rest) :
    Number.readWhole (w.number.whole ++ (w.fractionChars ++ (w.exponentChars ++ rest))) =
      .ok (w.number.whole, w.fractionChars ++ (w.exponentChars ++ rest)) := by
  rw [Number.readWhole, Number.digits_append w.whole (w.head?_fractionChars hrest), ok_bind]
  exact if_neg fun h => h.2 (w.unpadded h.1)

theorem readUnsigned_chars (hrest : Ends rest) :
    Number.readUnsigned w.number.negative
        (w.number.whole ++ (w.fractionChars ++ (w.exponentChars ++ rest))) =
      .ok (w.number, rest) := by
  rw [Number.readUnsigned, w.readWhole_chars hrest, ok_bind]
  dsimp only
  rw [w.readFraction_chars hrest, ok_bind]
  dsimp only
  rw [w.readExponent_chars hrest, ok_bind]

/-- A number is read as it is written. -/
theorem read_chars (hrest : Ends rest) : Number.read (w.chars ++ rest) = .ok (w.number, rest) := by
  have hunsigned := w.readUnsigned_chars hrest
  unfold chars signChars
  rw [List.append_assoc, List.append_assoc, List.append_assoc]
  cases h : w.number.negative with
  | true =>
    rw [h] at hunsigned
    exact hunsigned
  | false =>
    rw [h] at hunsigned
    rw [if_neg Bool.false_ne_true, List.nil_append, Number.read]
    · exact hunsigned
    · intro cs hcs
      obtain ⟨d, ds, hds, hd⟩ := w.head_whole
      rw [hds] at hcs
      exact ne_of_isDigit hd (by decide) (List.cons.inj hcs).1

end Numeric

end Multicycle.Json

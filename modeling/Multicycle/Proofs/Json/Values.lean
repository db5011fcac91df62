/-
JSON values as they are written, of any kind and any depth, with the blanks between their lexemes. Every
one of them is skipped to its end, whatever strings and numbers stand in it.
-/
import Multicycle.Proofs.Json.Numbers
import Mathlib.Data.List.DropRight

namespace Multicycle.Json

/-! ## Values -/

/-- The name of a member and its colon, with the blanks around them. -/
structure Name where
  lead : Gap
  pieces : Pieces
  behind : Gap
  ahead : Gap

namespace Name

/-- A name from behind its opening quote on. -/
def tail (n : Name) : List Char :=
  n.pieces.chars ++ '"' :: (n.behind.chars ++ ':' :: n.ahead.chars)

def chars (n : Name) : List Char := n.lead.chars ++ '"' :: n.tail

/-- A name without any blanks. -/
def ofKey (key : String) : Name := ⟨[], key.toList.map Piece.ofChar, [], []⟩

theorem spells_ofKey (key : String) : (ofKey key).pieces.Spells key.toList := Pieces.spells_ofChar _

theorem pieces_lt_length_chars (n : Name) : n.pieces.length + 2 < n.chars.length := by
  have hpieces := n.pieces.length_le_length_chars
  simp only [chars, tail, List.length_append, List.length_cons]
  omega

end Name

mutual

inductive Value where
  | null
  | bool (b : Bool)
  | number (w : Numeric)
  | string (ps : Pieces)
  | emptyArray (gap : Gap)
  | array (lead : Gap) (first : Value) (rest : Elements)
  | emptyObject (gap : Gap)
  | object (members : Members)

/-- What an array has behind an element. -/
inductive Elements where
  | close (gap : Gap)
  | more (gap lead : Gap) (v : Value) (rest : Elements)

inductive Members where
  | last (name : Name) (v : Value) (gap : Gap)
  | more (name : Name) (v : Value) (gap : Gap) (rest : Members)

end

mutual

def Value.chars : Value → List Char
  | .null => ['n', 'u', 'l', 'l']
  | .bool true => ['t', 'r', 'u', 'e']
  | .bool false => ['f', 'a', 'l', 's', 'e']
  | .number w => w.chars
  | .string ps => '"' :: (ps.chars ++ ['"'])
  | .emptyArray gap => '[' :: (gap.chars ++ [']'])
  | .array lead first rest => '[' :: (lead.chars ++ (first.chars ++ rest.chars))
  | .emptyObject gap => '{' :: (gap.chars ++ ['}'])
  | .object members => '{' :: members.chars

def Elements.chars : Elements → List Char
  | .close gap => gap.chars ++ [']']
  | .more gap lead v rest => gap.chars ++ ',' :: (lead.chars ++ (v.chars ++ rest.chars))

def Members.chars : Members → List Char
  | .last name v gap => name.chars ++ (v.chars ++ (gap.chars ++ ['}']))
  | .more name v gap rest => name.chars ++ (v.chars ++ (gap.chars ++ ',' :: rest.chars))

end

/-! ## Skipping -/

theorem colon_gap (gap : Gap) (cs : List Char) : colon (gap.chars ++ ':' :: cs) = .ok cs := by
  rw [colon, skipBlanks_gap, skipBlanks_cons (by decide)]
  rfl

theorem skipKey_chars (n : Name) {bound : Nat} (hbound : n.pieces.length < bound) (rest : List Char) :
    skipKey bound (n.chars ++ rest) = .ok (n.ahead.chars ++ rest) := by
  unfold skipKey Name.chars Name.tail
  simp only [List.append_assoc, List.cons_append]
  rw [skipBlanks_gap, skipBlanks_cons (by decide)]
  show (do colon (← skipString bound _)) = _
  rw [skipString_chars n.pieces hbound, ok_bind, colon_gap]

theorem skipNumber_chars (w : Numeric) {rest : List Char} (hrest : Ends rest) :
    skipNumber (w.chars ++ rest) = .ok rest := by
  rw [skipNumber, w.read_chars hrest]

section
variable {bound : Nat} {c : Char} {cs cs' : List Char}

theorem skipBlanks_skipBlanks (cs : List Char) : skipBlanks (skipBlanks cs) = skipBlanks cs :=
  List.dropWhile_idempotent isBlank cs

/-- Blanks in front of a value are passed over. -/
theorem skipValue_skipBlanks (bound : Nat) (cs : List Char) :
    skipValue bound (skipBlanks cs) = skipValue bound cs := by
  cases bound with
  | zero => rfl
  | succ bound => rw [skipValue, skipValue, skipBlanks_skipBlanks]

theorem skipValue_gap (bound : Nat) (gap : Gap) (cs : List Char) :
    skipValue bound (gap.chars ++ cs) = skipValue bound cs := by
  rw [← skipValue_skipBlanks, skipBlanks_gap, skipValue_skipBlanks]

theorem skipMembers_skipBlanks (bound : Nat) (cs : List Char) :
    skipMembers bound (skipBlanks cs) = skipMembers bound cs := by
  cases bound with
  | zero => rfl
  | succ bound => rw [skipMembers, skipMembers, skipKey, skipKey, skipBlanks_skipBlanks]

/-- What starts a number is none of the other signs. -/
theorem ne_of_startsNumber (hc : c = '-' ∨ c.isDigit = true) (d : Char)
    (hd : d ≠ '-' ∧ d.isDigit = false) : c ≠ d := by
  rintro rfl
  rcases hc with hc | hc
  · exact hd.1 hc
  · exact Bool.false_ne_true (hd.2.symm.trans hc)

theorem isBlank_of_startsNumber (hc : c = '-' ∨ c.isDigit = true) : isBlank c = false := by
  rw [← Bool.not_eq_true, isBlank_iff]
  rintro ⟨b, hb⟩
  exact ne_of_startsNumber hc b.char (by cases b <;> decide) hb.symm

theorem skipValue_number (hc : c = '-' ∨ c.isDigit = true) :
    skipValue (bound + 1) (c :: cs) = skipNumber (c :: cs) := by
  have hother := ne_of_startsNumber hc
  rw [skipValue, skipBlanks_cons (isBlank_of_startsNumber hc)]
  split
  all_goals rename_i heq
  case h_1 => cases heq
  case h_8 =>
    cases heq
    exact if_pos hc
  -- The six characters that start a value of another kind.
  all_goals exact absurd (List.cons.inj heq).1 (hother _ (by decide))

theorem skipValue_bracket (bound : Nat) (cs : List Char) :
    skipValue (bound + 1) ('[' :: cs) =
      match skipBlanks cs with
      | [] => .error .truncated
      | ']' :: cs => .ok cs
      | cs => skipValue bound cs >>= skipElements bound := by
  rw [skipValue, skipBlanks_cons (by decide)]
  rfl

theorem skipValue_brace (bound : Nat) (cs : List Char) :
    skipValue (bound + 1) ('{' :: cs) =
      match skipBlanks cs with
      | [] => .error .truncated
      | '}' :: cs => .ok cs
      | cs => skipMembers bound cs := by
  rw [skipValue, skipBlanks_cons (by decide)]
  rfl

theorem skipValue_array (h : skipBlanks cs = c :: cs') (hc : c ≠ ']') :
    skipValue (bound + 1) ('[' :: cs) = skipValue bound cs >>= skipElements bound := by
  rw [skipValue_bracket, ← skipValue_skipBlanks bound cs, h]
  split
  all_goals rename_i heq
  · cases heq
  · exact absurd (List.cons.inj heq).1 hc
  · rfl

theorem skipValue_object (h : skipBlanks cs = c :: cs') (hc : c ≠ '}') :
    skipValue (bound + 1) ('{' :: cs) = skipMembers bound cs := by
  rw [skipValue_brace, ← skipMembers_skipBlanks bound cs, h]
  split
  all_goals rename_i heq
  · cases heq
  · exact absurd (List.cons.inj heq).1 hc
  · rfl

theorem skipElements_close (gap : Gap) (bound : Nat) (cs : List Char) :
    skipElements (bound + 1) (gap.chars ++ ']' :: cs) = .ok cs := by
  rw [skipElements, skipBlanks_gap, skipBlanks_cons (by decide)]
  rfl

theorem skipElements_more (gap : Gap) (bound : Nat) (cs : List Char) :
    skipElements (bound + 1) (gap.chars ++ ',' :: cs) =
      skipValue bound cs >>= skipElements bound := by
  rw [skipElements, skipBlanks_gap, skipBlanks_cons (by decide)]
  rfl

/-- What is done with a member once its value is behind it. -/
theorem skipMembers_of_value (n : Name) (gap : Gap) {d : Char} (hbound : n.pieces.length < bound)
    (h : skipValue bound (n.ahead.chars ++ cs) = .ok (gap.chars ++ d :: cs')) :
    (d = '}' → skipMembers (bound + 1) (n.chars ++ cs) = .ok cs') ∧
      (d = ',' → skipMembers (bound + 1) (n.chars ++ cs) = skipMembers bound cs') := by
  rw [skipMembers, skipKey_chars n hbound, ok_bind, h, ok_bind, skipBlanks_gap]
  constructor
  · rintro rfl
    rw [skipBlanks_cons (by decide)]
    rfl
  · rintro rfl
    rw [skipBlanks_cons (by decide)]
    rfl

end

/-- A value starts with what is no blank and closes nothing. -/
theorem Value.head_chars (v : Value) :
    ∃ c cs, v.chars = c :: cs ∧ isBlank c = false ∧ c ≠ ']' ∧ c ≠ '}' := by
  cases v with
  | number w =>
    obtain ⟨c, cs, hcs, hc⟩ := w.head_chars
    have hother := ne_of_startsNumber hc
    exact ⟨c, cs, hcs, isBlank_of_startsNumber hc, hother _ (by decide), hother _ (by decide)⟩
  | bool b => cases b <;> exact ⟨_, _, rfl, by decide, by decide, by decide⟩
  | _ => exact ⟨_, _, rfl, by decide, by decide, by decide⟩

theorem Value.skipBlanks_chars (v : Value) (gap : Gap) (rest : List Char) :
    skipBlanks (gap.chars ++ (v.chars ++ rest)) = v.chars ++ rest := by
  obtain ⟨c, cs, hcs, hblank, -⟩ := v.head_chars
  rw [skipBlanks_gap, hcs, List.cons_append, skipBlanks_cons hblank]

theorem Elements.ends_chars_append (es : Elements) (rest : List Char) : Ends (es.chars ++ rest) := by
  cases es with
  | close gap =>
    rw [chars, List.append_assoc]
    exact Ends.gap_append (ends_cons (by decide) _) gap
  | more gap lead v es =>
    rw [chars, List.append_assoc]
    exact Ends.gap_append (ends_cons (by decide) _) gap

theorem Members.skipBlanks_chars (ms : Members) (rest : List Char) :
    ∃ cs, skipBlanks (ms.chars ++ rest) = '"' :: cs := by
  cases ms with
  | last name v gap | more name v gap ms =>
    rw [chars, Name.chars]
    simp only [List.append_assoc, List.cons_append]
    rw [skipBlanks_gap, skipBlanks_cons (by decide)]
    exact ⟨_, rfl⟩

mutual

/-- A value is skipped to its end. -/
theorem Value.skip (v : Value) {bound : Nat} (hbound : v.chars.length ≤ bound) {rest : List Char}
    (hrest : Ends rest) : skipValue bound (v.chars ++ rest) = .ok rest := by
  obtain ⟨bound, rfl⟩ : ∃ b, bound = b + 1 := by
    obtain ⟨c, cs, hcs, -⟩ := v.head_chars
    rw [hcs] at hbound
    exact Nat.exists_eq_add_of_le' (Nat.le_trans (Nat.succ_le_succ (Nat.zero_le _)) hbound)
  match v with
  | .null => rfl
  | .bool true => rfl
  | .bool false => rfl
  | .number w =>
    obtain ⟨c, cs, hcs, hc⟩ := w.head_chars
    have hskip := skipNumber_chars w hrest
    rw [hcs] at hskip
    rw [Value.chars, hcs]
    exact (skipValue_number hc).trans hskip
  | .string ps =>
    have hps := ps.length_le_length_chars
    simp only [Value.chars, List.length_cons, List.length_append] at hbound
    rw [Value.chars, List.cons_append, List.append_assoc, skipValue, skipBlanks_cons (by decide)]
    exact skipString_chars ps (by omega) rest
  | .emptyArray gap =>
    rw [Value.chars, List.cons_append, List.append_assoc, skipValue_bracket, skipBlanks_gap]
    rfl
  | .array lead first es =>
    simp only [Value.chars, List.length_cons, List.length_append] at hbound
    obtain ⟨c, cs, hcs, -, hbracket, -⟩ := first.head_chars
    have hopen := first.skipBlanks_chars lead (es.chars ++ rest)
    have hfirst : skipValue bound _ = _ := first.skip (by omega) (es.ends_chars_append rest)
    rw [Value.chars, List.cons_append, List.append_assoc, List.append_assoc]
    rw [hcs] at hopen hfirst ⊢
    rw [skipValue_array hopen hbracket, skipValue_gap, hfirst, ok_bind]
    exact es.skip (by omega) rest
  | .emptyObject gap =>
    rw [Value.chars, List.cons_append, List.append_assoc, skipValue_brace, skipBlanks_gap]
    rfl
  | .object ms =>
    simp only [Value.chars, List.length_cons] at hbound
    obtain ⟨cs, hcs⟩ := ms.skipBlanks_chars rest
    rw [Value.chars, List.cons_append, skipValue_object hcs (by decide)]
    exact ms.skip (by omega) rest

theorem Elements.skip (es : Elements) {bound : Nat} (hbound : es.chars.length ≤ bound)
    (rest : List Char) : skipElements bound (es.chars ++ rest) = .ok rest := by
  match es with
  | .close gap =>
    simp only [Elements.chars, List.length_append, List.length_singleton] at hbound
    obtain ⟨bound, rfl⟩ := Nat.exists_eq_add_of_le' (Nat.le_of_add_left_le hbound)
    rw [Elements.chars, List.append_assoc]
    exact skipElements_close gap bound rest
  | .more gap lead v es =>
    simp only [Elements.chars, List.length_append, List.length_cons] at hbound
    obtain ⟨bound, rfl⟩ : ∃ b, bound = b + 1 := ⟨bound - 1, by omega⟩
    have hv : skipValue bound _ = _ := v.skip (by omega) (es.ends_chars_append rest)
    rw [Elements.chars, List.append_assoc, List.cons_append, List.append_assoc, List.append_assoc,
      skipElements_more, skipValue_gap, hv, ok_bind]
    exact es.skip (by omega) rest

theorem Members.skip (ms : Members) {bound : Nat} (hbound : ms.chars.length ≤ bound)
    (rest : List Char) : skipMembers bound (ms.chars ++ rest) = .ok rest := by
  match ms with
  | .last name v gap =>
    have hname := name.pieces_lt_length_chars
    simp only [Members.chars, List.length_append, List.length_singleton] at hbound
    obtain ⟨bound, rfl⟩ : ∃ b, bound = b + 1 := ⟨bound - 1, by omega⟩
    have hv : skipValue bound _ = _ := v.skip (by omega)
      (Ends.gap_append (ends_cons (c := '}') (by decide) rest) gap)
    rw [Members.chars, List.append_assoc, List.append_assoc, List.append_assoc]
    refine (skipMembers_of_value name gap (by omega) ?_).1 rfl
    rw [skipValue_gap]
    exact hv
  | .more name v gap ms =>
    have hname := name.pieces_lt_length_chars
    simp only [Members.chars, List.length_append, List.length_cons] at hbound
    obtain ⟨bound, rfl⟩ : ∃ b, bound = b + 1 := ⟨bound - 1, by omega⟩
    have hv : skipValue bound _ = _ := v.skip (by omega)
      (Ends.gap_append (ends_cons (c := ',') (by decide) (ms.chars ++ rest)) gap)
    rw [Members.chars, List.append_assoc, List.append_assoc, List.append_assoc]
    refine ((skipMembers_of_value name gap (by omega) ?_).2 rfl).trans (ms.skip (by omega) rest)
    rw [skipValue_gap]
    exact hv

end

end Multicycle.Json

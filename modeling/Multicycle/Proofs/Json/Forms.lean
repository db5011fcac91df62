/-
The two forms of a record, an object of its members or an array of its first fields. A reader of records
takes either form for the updates of the fields that it gives. An object that departs from its form, by a
key that was there before or by a value that its field refuses, is refused whatever comes after.
-/
import Multicycle.Proofs.Json.Records

namespace Multicycle.Json

variable {σ κ : Type}

/-! ## Elements one after another -/

section
variable {field : Entry σ} {fields : List (Entry σ)} {text : List Char} {update : σ → σ}

theorem readElements_close (fields : List (Entry σ)) (first : Bool) (s : σ) (gap : Gap)
    (cs : List Char) : readElements fields first s (gap.chars ++ ']' :: cs) = .ok (s, cs) := by
  cases fields with
  | nil =>
    rw [readElements, skipBlanks_gap, skipBlanks_cons (by decide)]
    rfl
  | cons field fields =>
    rw [readElements, skipBlanks_gap, skipBlanks_cons (by decide)]
    rfl

/-- The start of an element, from its first character on. -/
theorem readElements_start {c : Char} (hc : c ≠ ']') {first : Bool} {s : σ} {cs cs' : List Char}
    (hcs : skipBlanks cs = c :: cs') :
    readElements (field :: fields) first s cs =
      nextEntry first (c :: cs') >>= fun cs =>
        match cs with
        | ']' :: _ => .error .malformed
        | cs => field.read s cs >>= fun r => readElements fields false r.1 r.2 := by
  rw [readElements, hcs]
  split
  all_goals rename_i heq
  · cases heq
  · exact absurd (List.cons.inj heq).1 hc
  · rfl

/-- One element is read as the update of its field. -/
theorem readElements_element (htakes : field.read.Takes text update) (first : Bool) (s : σ)
    (front lead : Gap) {rest : List Char} (hrest : Ends rest) :
    readElements (field :: fields) first s
        (front.chars ++ (comma first ++ (lead.chars ++ (text ++ rest)))) =
      readElements fields false (update s) rest := by
  obtain ⟨c, cs, htext, hblank, hbracket⟩ := htakes.opens
  have hread : field.read s (text ++ rest) = .ok (update s, rest) := htakes.read_eq [] s hrest
  have hskip : skipBlanks (lead.chars ++ (text ++ rest)) = c :: (cs ++ rest) := by
    rw [skipBlanks_gap, htext, List.cons_append, skipBlanks_cons hblank]
  obtain ⟨d, ds, hd, hds, hnext⟩ := nextEntry_chars first front hskip
  have hd' : d ≠ ']' := by
    rcases hd with rfl | rfl
    · exact hbracket
    · decide
  rw [htext, List.cons_append] at hread
  rw [readElements_start hd' hds, hnext, ok_bind]
  split
  · rename_i heq
    exact absurd (List.cons.inj heq).1 hbracket
  · rw [hread, ok_bind]

end

/-- Elements for the first fields, in their order, are read as the updates of these. -/
theorem readElements_listed {entry : κ → Entry σ} {text : κ → List Char} {update : κ → σ → σ}
    {names : List κ} (htakes : ∀ k ∈ names, (entry k).read.Takes (text k) (update k))
    {es : List (Element κ)} (hfirst : es.map Element.name <+: names) (first : Bool) (s : σ)
    (close : Gap) (rest : List Char) :
    readElements (names.map entry) first s
        (listed (Element.chars text) first es ++ (close.chars ++ ']' :: rest)) =
      .ok (updates update (es.map Element.name) s, rest) := by
  induction es generalizing names first s with
  | nil => exact readElements_close _ first s close rest
  | cons e es ih =>
    obtain ⟨names', rfl⟩ := hfirst
    have hends : Ends (listed (Element.chars text) false es ++ (close.chars ++ ']' :: rest)) := by
      cases es with
      | nil => exact Ends.gap_append (ends_cons (.inr (.inr (.inl rfl))) _) close
      | cons e es =>
        simp only [listed, Element.chars, comma, List.append_assoc]
        exact Ends.gap_append (ends_cons (.inr (.inl rfl)) _) e.front
    have he := htakes e.name (List.mem_cons_self ..)
    rw [listed, Element.chars]
    simp only [List.append_assoc, List.map_cons, List.cons_append]
    rw [readElements_element he first s e.front e.lead hends]
    exact ih (fun k hk => htakes k (List.mem_cons_of_mem _ hk)) (List.prefix_append _ _) false _

/-! ## Forms -/

/-- How a record is written down to the values of its fields. -/
inductive Form (κ : Type) where
  | object (members : List (Member κ)) (close : Gap)
  | array (elements : List (Element κ)) (close : Gap)

namespace Form

def chars (text : κ → List Char) : Form κ → List Char
  | object ms close => '{' :: (listed (Member.chars text) true ms ++ (close.chars ++ ['}']))
  | array es close => '[' :: (listed (Element.chars text) true es ++ (close.chars ++ [']']))

/-- The fields that a form gives, in their order. -/
def given : Form κ → List κ
  | object ms _ => Json.given ms
  | array es _ => es.map Element.name

/-- An object gives each field at most once, and an array gives the first fields in their order. -/
def Fits (S : Schema σ κ) : Form κ → Prop
  | object ms _ => (∀ m ∈ ms, m.Fits S) ∧ (Json.given ms).Nodup
  | array es _ => es.map Element.name <+: S.names

end Form

section
variable (S : Schema σ κ) {text : κ → List Char} {update : κ → σ → σ}
  (htakes : ∀ k ∈ S.names, (S.entry k).read.Takes (text k) (update k))

theorem record_object (gap : Gap) (s : σ) (cs : List Char) :
    record S.fields s (gap.chars ++ '{' :: cs) =
      readMembers S.fields (cs.length + 1) true [] s cs := by
  rw [record, skipBlanks_gap, skipBlanks_cons (by decide)]
  rfl

theorem record_array (gap : Gap) (s : σ) (cs : List Char) :
    record S.fields s (gap.chars ++ '[' :: cs) = readElements S.fields true s cs := by
  rw [record, skipBlanks_gap, skipBlanks_cons (by decide)]
  rfl

include htakes

/-- A record is read as the updates of the fields that are given, in either form. -/
theorem Form.takes {form : Form κ} (hfits : form.Fits S) :
    Reader.Takes (record S.fields) (form.chars text) (updates update form.given) where
  opens := by
    cases form with
    | object ms close => exact ⟨'{', _, rfl, by decide, by decide⟩
    | array es close => exact ⟨'[', _, rfl, by decide, by decide⟩
  read_eq gap s rest hrest := by
    cases form with
    | object ms close =>
      obtain ⟨hms, hnodup⟩ := hfits
      rw [chars]
      simp only [List.cons_append, List.append_assoc, List.nil_append]
      rw [record_object]
      have hclose : Ends (close.chars ++ '}' :: rest) :=
        Ends.gap_append (ends_cons (.inr (.inr (.inr rfl))) _) close
      obtain ⟨bound, hbound, hread⟩ := readMembers_listed S htakes hms hnodup
        (fun _ _ => List.not_mem_nil) hclose true s (Nat.lt_succ_self _)
      obtain ⟨bound, rfl⟩ := Nat.exists_eq_add_of_le' (Nat.one_le_of_lt hbound)
      rw [hread, readMembers_close]
      rfl
    | array es close =>
      rw [chars]
      simp only [List.cons_append, List.append_assoc, List.nil_append]
      rw [record_array]
      exact readElements_listed htakes hfits true s close rest

/-- A document of one record, with blanks around it. -/
theorem document_form {form : Form κ} (hfits : form.Fits S) (lead trail : Gap) (s : σ) :
    document S.fields s (String.ofList (lead.chars ++ (form.chars text ++ trail.chars))) =
      .ok (updates update form.given s) := by
  have htrail : Ends trail.chars := by
    rw [← List.append_nil trail.chars]
    exact Ends.gap_append (by simp [Ends]) trail
  have hskip : skipBlanks trail.chars = [] := by
    rw [← List.append_nil trail.chars, skipBlanks_gap]
    rfl
  rw [document, String.toList_ofList, (Form.takes S htakes hfits).read_eq lead s htrail, ok_bind]
  dsimp only
  rw [hskip]

end

/-! ## Departures -/

/-- An object that goes along with its form up to one member and departs from it there: the key of the
member was there before, or its value starts with what its field does not take. -/
inductive Departs (S : Schema σ κ) (text : κ → List Char) (bad : κ → List Char → Prop) :
    List Char → Prop
  | repeated {ms : List (Member κ)} (hfits : ∀ m ∈ ms, m.Fits S) (hnodup : (given ms).Nodup)
    (front lead : Gap) {k : κ} (hk : k ∈ given ms) {ps : Pieces}
    (hspells : ps.Spells (S.entry k).key.toList) (after : List Char) :
    Departs S text bad ('{' :: (listed (Member.chars text) true ms ++
      (front.chars ++ (comma ms.isEmpty ++ (lead.chars ++ '"' :: (ps.chars ++ '"' :: after))))))
  | within {ms : List (Member κ)} (hfits : ∀ m ∈ ms, m.Fits S) (hnodup : (given ms).Nodup)
    (front : Gap) {k : κ} (hk : k ∈ S.names) (hfresh : k ∉ given ms) {n : Name}
    (hspells : n.pieces.Spells (S.entry k).key.toList) {cs : List Char} (hbad : bad k cs) :
    Departs S text bad ('{' :: (listed (Member.chars text) true ms ++
      (front.chars ++ (comma ms.isEmpty ++ (n.chars ++ cs)))))

theorem ends_member (first : Bool) (front lead : Gap) (cs : List Char) :
    Ends (front.chars ++ (comma first ++ (lead.chars ++ '"' :: cs))) := by
  refine Ends.gap_append ?_ front
  cases first with
  | true =>
    refine Ends.gap_append ?_ lead
    rintro _ ⟨⟩
    decide
  | false => exact ends_cons (.inr (.inl rfl)) _

section
variable (S : Schema σ κ) {text : κ → List Char} {update : κ → σ → σ}
  (htakes : ∀ k ∈ S.names, (S.entry k).read.Takes (text k) (update k))
include htakes

/-- Behind members that fit, an object goes on with the key of the next member; the keys that have been
seen are those of the fields given. -/
theorem record_member {ms : List (Member κ)} (hfits : ∀ m ∈ ms, m.Fits S) (hnodup : (given ms).Nodup)
    (gap front lead : Gap) (s : σ) (cs : List Char) :
    ∃ bound, cs.length < bound ∧
      record S.fields s (gap.chars ++ '{' :: (listed (Member.chars text) true ms ++
          (front.chars ++ (comma ms.isEmpty ++ (lead.chars ++ '"' :: cs))))) =
        readMember S.fields bound ((given ms).map fun k => (S.entry k).key).reverse
            (updates update (given ms) s) ('"' :: cs) >>= fun r =>
          readMembers S.fields bound false r.1.1 r.1.2 r.2 := by
  obtain ⟨bound, hbound, hread⟩ := readMembers_listed S htakes hfits hnodup
    (fun _ _ => List.not_mem_nil) (ends_member ms.isEmpty front lead cs) true s (Nat.lt_succ_self _)
  simp only [List.length_append, List.length_cons] at hbound
  obtain ⟨bound, rfl⟩ : ∃ b, bound = b + 1 := ⟨bound - 1, by omega⟩
  refine ⟨bound, by omega, ?_⟩
  rw [record_object, hread, Bool.true_and, readMembers_enter, List.append_nil]

/-- An object that departs from its form is refused. -/
theorem Departs.refuses {bad : κ → List Char → Prop}
    (hbad : ∀ k ∈ S.names, ∀ cs, bad k cs → (S.entry k).read.Refuses cs) {cs : List Char}
    (h : Departs S text bad cs) : Reader.Refuses (record S.fields) cs := by
  intro gap s
  cases h with
  | @repeated ms hfits hnodup front lead k hk ps hspells after =>
    obtain ⟨bound, hbound, hrecord⟩ := record_member S htakes hfits hnodup gap front lead s
      (ps.chars ++ '"' :: after)
    have hps := ps.length_le_length_chars
    simp only [List.length_append, List.length_cons] at hbound
    have hseen : (S.entry k).key ∈ ((given ms).map fun k => (S.entry k).key).reverse :=
      List.mem_reverse.2 (List.mem_map_of_mem hk)
    rw [hrecord, readMember_repeated S _ (mem_names_of_given hfits hk) hseen hspells (by omega),
      error_bind]
  | @within ms hfits hnodup front k hk hfresh n hspells cs hvalue =>
    obtain ⟨bound, hbound, hrecord⟩ := record_member S htakes hfits hnodup gap front n.lead s
      (n.tail ++ cs)
    have hps := n.pieces.length_le_length_chars
    simp only [Name.tail, List.length_append, List.length_cons] at hbound
    have hseen : (S.entry k).key ∉ ((given ms).map fun k => (S.entry k).key).reverse := by
      rw [List.mem_reverse, List.mem_map]
      rintro ⟨k', hk', hkey⟩
      exact hfresh (S.eq_of_key_eq (mem_names_of_given hfits hk') hk hkey ▸ hk')
    unfold Name.chars
    rw [List.append_assoc, List.cons_append, hrecord,
      readMember_tail_field S _ hk hseen hspells (by omega), hbad k hk cs hvalue]
    rfl

end

end Multicycle.Json
